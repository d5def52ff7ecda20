import RyFi.Conv.Slices

/-! # No path metric wraps

`Exact` predicates for the three kinds of slices: every 16-bit sum of metrics that are read
is the integer sum, every comparison comes out as that of the integers that are never
reduced, and a renormalization subtracts no more than any metric that is still read.
`never_wraps` finds them in every slice of every call, whatever the soft values, the number
of sets and the counter left by earlier calls are.
-/

namespace RyFi.Conv

open CLoop ShiftTrellis

/-- The comparisons of two metrics come out as those of two integers. -/
def SameOrder (a b : UInt16) (x y : Nat) : Prop := (a ≤ b ↔ x ≤ y) ∧ (a < b ↔ x < y)

theorem sameOrder_of_add {a b : UInt16} {x y : Nat} (off : Nat) (ha : a.toNat + off = x)
    (hb : b.toNat + off = y) : SameOrder a b x y := by
  rw [SameOrder, UInt16.le_iff_toNat_le, UInt16.lt_iff_toNat_lt]
  omega

/-- Processing a filled slice: the comparisons of the search, its first one with the largest
    value there is, and the subtractions. -/
structure ProcessExact (neon : Bool) (buf : HistoryBuffer) (distances : Nat → UInt16) (skip : Nat)
    (next : Nat → Nat) : Prop where
  sentinel : ∀ s, s < 64 → skip ∣ s → distances s < 0xFFFF
  order : ∀ s s', s < 64 → skip ∣ s → s' < 64 → skip ∣ s' →
    SameOrder (distances s) (distances s') (next s) (next s')
  renormalize : buf.renormalizeCounter + 1 = buf.renormalizeInterval →
    ∀ s, s < 64 → skip ∣ s → distances (buf.search neon distances skip) ≤ distances s

/-- Add-compare-select over all states. -/
structure AcsExact (pairs : PairLookup) (readErrors : Nat → UInt16) (arrive : Nat → Nat) :
    Prop where
  low_sums : ∀ p, p < 64 → (Convolutional.lowHalf (pairs.distances (pairs.keys p))).toNat +
    (readErrors p).toNat ≤ 65535
  high_sums : ∀ p, p < 64 → (Convolutional.highHalf (pairs.distances (pairs.keys p))).toNat +
    (readErrors p).toNat ≤ 65535
  even : ∀ p, p < 32 → SameOrder
    (Convolutional.lowHalf (pairs.distances (pairs.keys p)) + readErrors p)
    (Convolutional.lowHalf (pairs.distances (pairs.keys (32 + p))) + readErrors (32 + p))
    (arrive (2 * p)) (arrive (2 * p + 64))
  odd : ∀ p, p < 32 → SameOrder
    (Convolutional.highHalf (pairs.distances (pairs.keys p)) + readErrors p)
    (Convolutional.highHalf (pairs.distances (pairs.keys (32 + p))) + readErrors (32 + p))
    (arrive (2 * p + 1)) (arrive (2 * p + 1 + 64))

/-- Add-compare-select of the tail. -/
structure TailAcsExact (table : Nat → Nat) (distances readErrors : Nat → UInt16) (skip : Nat)
    (arrive : Nat → Nat) : Prop where
  low_sums : ∀ k, k < (64 + skip - 1) / skip →
    (distances (table (k * skip))).toNat + (readErrors (k * (skip >>> 1))).toNat ≤ 65535
  high_sums : ∀ k, k < (64 + skip - 1) / skip →
    (distances (table (64 + k * skip))).toNat +
      (readErrors ((64 >>> 1) + k * (skip >>> 1))).toNat ≤ 65535
  order : ∀ k, k < (64 + skip - 1) / skip → SameOrder
    (distances (table (k * skip)) + readErrors (k * (skip >>> 1)))
    (distances (table (64 + k * skip)) + readErrors ((64 >>> 1) + k * (skip >>> 1)))
    (arrive (k * skip)) (arrive (64 + k * skip))

namespace Convolutional

/-- Slice `i` of the warmup; nothing is compared there. -/
def WarmupExact (soft : Nat → UInt8) (i : Nat) (conv : Convolutional) : Prop :=
  ∀ j, j < 1 <<< (i + 1) →
    (conv.softDistance (conv.table j) (conv.sliceOf soft i)).toNat +
      (conv.errors.readErrors (j >>> 1)).toNat ≤ 65535

/-- Slice `i` of the inner phase. -/
structure InnerExact (neon : Bool) (soft : Nat → UInt8) (i : Nat) (arrive next : Nat → Nat)
    (conv : Convolutional) : Prop where
  acs : AcsExact (conv.innerReady soft i).pairLookup conv.errors.readErrors arrive
  process : ProcessExact neon
    ((conv.innerReady soft i).historyBuffer.setSlice (conv.innerFilled neon soft i).history)
    (conv.innerFilled neon soft i).errors 1 next

/-- Slice `i` of the tail. -/
structure TailExact (neon : Bool) (sets : Nat) (soft : Nat → UInt8) (i : Nat)
    (arrive next : Nat → Nat) (conv : Convolutional) : Prop where
  acs : TailAcsExact conv.table (conv.fillDistances (some soft) i).distances
    conv.errors.readErrors (conv.tailSkip sets i) arrive
  process : ProcessExact neon
    ((conv.fillDistances (some soft) i).historyBuffer.setSlice
      (conv.tailFilled sets soft i).history)
    (conv.tailFilled sets soft i).errors (conv.tailSkip sets i) next

/-- All slices of a call with a block the phases see as `sets` slices. -/
structure NeverWraps (neon : Bool) (numEncodedBytes : Nat) (msg soft : Nat → UInt8) (sets : Nat)
    (conv : Convolutional) : Prop where
  warmup : ∀ i, i < min 6 sets → WarmupExact soft i
    (forLoop 0 i (warmupSlice (some soft)) (conv.decodeStart numEncodedBytes msg))
  inner : ∀ n, InnerSlice sets n →
    InnerExact neon soft ((6 + n) % 2 ^ 32) (trueArrive soft sets n) (trueNext soft sets n)
      (innerRun neon soft (conv.warmed numEncodedBytes msg soft sets) n)
  tail : 6 ≤ sets → ∀ k, k < 6 →
    TailExact neon sets soft (sets - 6 + k) (trueArrive soft sets (sets - 12 + k))
      (trueNext soft sets (sets - 12 + k))
      (tailRun neon soft sets
        (innerRun neon soft (conv.warmed numEncodedBytes msg soft sets) (sets - 12)) k)

variable {soft : Nat → UInt8} {sets n off skip : Nat} {conv : Convolutional}

/-! ## One slice -/

theorem Reads.process_exact {base : Nat} {m next : Nat → Nat} (h : Reads base m skip off conv)
    (hbase : base ≤ 3060) (hclose : Close next)
    (hanchor : ∃ s < 64, next s ≤ off + base + 255 * (conv.historyBuffer.renormalizeCounter + 1))
    (neon : Bool) {s : Slice} {skip' : Nat} (hpos : 0 < skip')
    (hfill : ∀ state, state < 64 → skip' ∣ state → (s.errors state).toNat + off = next state) :
    ProcessExact neon (conv.historyBuffer.setSlice s.history) s.errors skip' next := by
  have hlt : ∀ state, state < 64 → skip' ∣ state → (s.errors state).toNat < 65535 :=
    fun state hs hdvd => h.filled_lt hbase hclose hanchor hs (hfill state hs hdvd)
  obtain ⟨p, hsearch, -, -, hleast⟩ := h.search_least neon s hpos hlt
  refine ⟨?_, ?_, ?_⟩
  · exact fun state hs hdvd => UInt16.lt_iff_toNat_lt.mpr (hlt state hs hdvd)
  · exact fun state state' hs hdvd hs' hdvd' =>
      sameOrder_of_add off (hfill state hs hdvd) (hfill state' hs' hdvd')
  · intro _
    rw [hsearch]
    exact hleast

theorem warmup_exact {m : Nat → Nat} {i : Nat} (hi : i < 6) (h : Reads 3060 m 1 off conv) :
    WarmupExact soft i conv := by
  intro j hj
  have hhalf : j >>> 1 < 64 := by
    have hpow : 2 ^ (i + 1) ≤ 2 ^ 6 := Nat.pow_le_pow_right (by omega) (by omega)
    rw [Nat.one_shiftLeft] at hj
    rw [Nat.shiftRight_eq_div_pow]
    omega
  have hread := h.read_le (by omega) hhalf (Nat.one_dvd _)
  have hcost := sliceCost_le soft i (conv.table j)
  rw [softDistance_toNat h.ofCode]
  omega

/-- What the inner phase reads for the successors of `p`. -/
theorem pair_distances {pairs : PairLookup} (hpairs : PairLookup.For 2 7 codeTable pairs)
    (d : Nat → UInt16) {p : Nat} (hp : p < 64) :
    lowHalf ((pairs.fillDistance d).distances ((pairs.fillDistance d).keys p)) =
        d (codeTable (2 * p)) ∧
      highHalf ((pairs.fillDistance d).distances ((pairs.fillDistance d).keys p)) =
        d (codeTable (2 * p + 1)) := by
  have hkeys := fillDistance_keys hpairs codeTable_lt d hp
  rw [Nat.mul_comm p 2] at hkeys
  exact hkeys

theorem Reads.acs_comparisons {base : Nat} {m : Nat → Nat} (h : Reads base m 1 off conv)
    (hbase : base ≤ 3060) {pairs : PairLookup} (hpairs : PairLookup.For 2 7 codeTable pairs)
    {d : Nat → UInt16} (hd : ∀ x, x < 4 → (d x).toNat ≤ 510) :
    AcsExact (pairs.fillDistance d) conv.errors.readErrors
      (fun reg => branchCost d reg + m (reg / 2)) := by
  have hsum := fun reg s hs => h.sum_exact hbase hd reg (s := s) hs (Nat.one_dvd s)
  refine ⟨?_, ?_, ?_, ?_⟩
  · intro p hp
    rw [(pair_distances hpairs d hp).1]
    exact Nat.le_trans (hsum (2 * p) p hp).1 (by omega)
  · intro p hp
    rw [(pair_distances hpairs d hp).2]
    exact Nat.le_trans (hsum (2 * p + 1) p hp).1 (by omega)
  · intro p hp
    rw [(pair_distances hpairs d (show p < 64 by omega)).1,
      (pair_distances hpairs d (show 32 + p < 64 by omega)).1]
    refine sameOrder_of_add off ?_ ?_
    · rw [(hsum (2 * p) p (by omega)).2, show 2 * p / 2 = p by omega]
    · rw [(hsum (2 * (32 + p)) (32 + p) (by omega)).2, show 2 * (32 + p) = 2 * p + 64 by omega,
        show (2 * p + 64) / 2 = 32 + p by omega]
  · intro p hp
    rw [(pair_distances hpairs d (show p < 64 by omega)).2,
      (pair_distances hpairs d (show 32 + p < 64 by omega)).2]
    refine sameOrder_of_add off ?_ ?_
    · rw [(hsum (2 * p + 1) p (by omega)).2, show (2 * p + 1) / 2 = p by omega]
    · rw [(hsum (2 * (32 + p) + 1) (32 + p) (by omega)).2,
        show 2 * (32 + p) + 1 = 2 * p + 1 + 64 by omega,
        show (2 * p + 1 + 64) / 2 = 32 + p by omega]

theorem Reads.tailAcs_comparisons {base half : Nat} {m : Nat → Nat}
    (h : Reads base m half off conv) (hbase : base ≤ 3060) (hhalf : 0 < half) (hdvd : half ∣ 32)
    {d : Nat → UInt16} (hd : ∀ x, x < 4 → (d x).toNat ≤ 510) :
    TailAcsExact codeTable d conv.errors.readErrors (2 * half)
      (fun reg => branchCost d reg + m (reg / 2)) := by
  have hbase' : (2 * half) >>> 1 = half := by
    rw [Nat.shiftRight_eq_div_pow, Nat.pow_one, Nat.mul_div_cancel_left _ (by omega)]
  have hlt : ∀ k, k < (64 + 2 * half - 1) / (2 * half) → k * half < 32 := by
    intro k hk
    rw [Nat.lt_iff_add_one_le, Nat.le_div_iff_mul_le (by omega), Nat.add_mul, Nat.one_mul,
      Nat.mul_left_comm] at hk
    omega
  have hlow := fun k hk => h.sum_exact hbase hd (k * (2 * half)) (s := k * half)
    (show k * half < 64 by have := hlt k hk; omega) (Nat.dvd_mul_left half k)
  have hhigh := fun k hk => h.sum_exact hbase hd (64 + k * (2 * half)) (s := 32 + k * half)
    (show 32 + k * half < 64 by have := hlt k hk; omega)
    ((Nat.dvd_add_right hdvd).mpr (Nat.dvd_mul_left half k))
  refine ⟨?_, ?_, ?_⟩
  · intro k hk
    rw [hbase']
    exact Nat.le_trans (hlow k hk).1 (by omega)
  · intro k hk
    rw [hbase']
    exact Nat.le_trans (hhigh k hk).1 (by omega)
  · intro k hk
    rw [hbase']
    refine sameOrder_of_add off ?_ ?_
    · rw [(hlow k hk).2, Nat.mul_left_comm, Nat.mul_div_cancel_left _ (by omega)]
    · rw [show (64 >>> 1) + k * half = 32 + k * half from rfl, (hhigh k hk).2, Nat.mul_left_comm,
        show (64 + 2 * (k * half)) / 2 = 32 + k * half by omega]

theorem inner_exact (h : Reads 3060 (trueMetric soft sets n) 1 off conv) (neon : Bool) :
    InnerExact neon soft (sliceIndex sets n) (trueArrive soft sets n) (trueNext soft sets n)
      conv := by
  have hready := reads_ready soft h (sliceIndex sets n)
  have hacs := h.acs_comparisons (by omega)
    (reads_fillDistances soft h (sliceIndex sets n)).ofCode.pairs_for
    (distances_le h.ofCode soft (sliceIndex sets n))
  rw [branchCost_eq h.ofCode] at hacs
  exact ⟨hacs, hready.process_exact (by omega) (close_trueNext n) (anchor_inner hready) neon
    (by omega) fun state hs _ => inner_fills h neon hs⟩

theorem tail_exact {k : Nat}
    (h : Reads 3060 (trueMetric soft sets (sets - 12 + k)) (2 ^ k) off conv) (hlarge : 6 ≤ sets)
    (hk : k < 6) (neon : Bool) :
    TailExact neon sets soft (sets - 6 + k) (trueArrive soft sets (sets - 12 + k))
      (trueNext soft sets (sets - 12 + k)) conv := by
  have hready := reads_fillDistances soft h (sets - 6 + k)
  have hdvd : 2 ^ k ∣ 32 := by
    rw [show (32 : Nat) = 2 ^ 5 from rfl]
    exact Nat.pow_dvd_pow 2 (by omega)
  have hskip := tailSkip_eq h.ofCode hlarge hk
  have hacs := h.tailAcs_comparisons (by omega) (Nat.two_pow_pos k) hdvd
    (distances_le h.ofCode soft (sets - 6 + k))
  rw [← sliceIndex_tail hlarge, branchCost_eq h.ofCode, sliceIndex_tail hlarge, ← hskip,
    ← h.ofCode.table_eq] at hacs
  refine ⟨hacs, hready.process_exact (by omega) (close_trueNext _) (anchor_inner hready) neon ?_ ?_⟩
  · rw [hskip]
    exact Nat.mul_pos (by omega) (Nat.two_pow_pos k)
  · intro state hs hstate
    rw [hskip] at hstate
    exact tail_fills h hlarge hk hs hstate

/-! ## Every slice -/

/-- Before every slice of the inner phase, also the one whose metrics are not read. -/
theorem reads_innerRun (h : Ready conv) (numEncodedBytes : Nat) (msg soft : Nat → UInt8)
    (neon : Bool) (hsets : sets < 2 ^ 32) (hslices : ∀ j, j < n → InnerSlice sets j) :
    ∃ off, Reads 3060 (trueMetric soft sets n) 1 off
      (innerRun neon soft (conv.warmed numEncodedBytes msg soft sets) n) := by
  by_cases hread : sets = 0 ∧ n = 0
  · obtain ⟨rfl, rfl⟩ := hread
    exact ⟨0, reads_warmed h numEncodedBytes msg soft 0⟩
  · obtain ⟨off, -, hfollows⟩ :=
      follows_innerRun h numEncodedBytes msg soft neon hsets hread hslices
    exact ⟨off, hfollows.toReads⟩

/-- No sum wraps in any slice; a call that ends has done just these slices and the flush. -/
theorem never_wraps (h : Ready conv) (neon : Bool) (numEncodedBytes : Nat)
    (msg soft : Nat → UInt8) (s : Nat) :
    let sets := s % 2 ^ 32
    let last := conv.tailed neon numEncodedBytes msg soft sets
    NeverWraps neon numEncodedBytes msg soft sets conv ∧
      (6 ≤ sets → conv.decodeSets neon (2 * s) numEncodedBytes msg (some soft) =
        some (last.flushed, last.flushed.bitWriter.length)) := by
  intro sets last
  have hsets : sets < 2 ^ 32 := Nat.mod_lt _ (Nat.two_pow_pos 32)
  refine ⟨⟨?_, ?_, ?_⟩, decodeSets_runs h neon numEncodedBytes msg soft s⟩
  · intro i hi
    exact warmup_exact (by omega) (reads_warmup h numEncodedBytes msg soft (by omega))
  · intro n hn
    obtain ⟨off, hreads⟩ := reads_innerRun (n := n) h numEncodedBytes msg soft neon hsets
      fun j hj => by
        simp only [InnerSlice] at hn ⊢
        omega
    rw [← sliceIndex_inner hsets hn]
    exact inner_exact hreads neon
  · intro hlarge k hk
    obtain ⟨off, hfollows⟩ := follows_tailRun h numEncodedBytes msg soft neon hlarge hsets
      (Nat.le_of_lt hk)
    exact tail_exact hfollows.toReads hlarge hk neon

theorem counter_innerSlice (hof : OfCode conv) (neon : Bool) (soft : Nat → UInt8) (i : Nat) :
    (conv.innerSlice neon (some soft) i).historyBuffer.renormalizeCounter =
      if conv.historyBuffer.renormalizeCounter + 1 = 128 then 0
      else conv.historyBuffer.renormalizeCounter + 1 := by
  have hready : OfCode (conv.innerReady soft i) :=
    (config_fillDistances (some soft) i conv).trans hof
  rw [innerSlice_eq]
  exact counter_finishSlice hready neon _ 1

/-- A block of at least 140 slices renormalizes in its inner phase. -/
theorem exists_renormalized (h : Ready conv) (numEncodedBytes : Nat) (msg soft : Nat → UInt8)
    (neon : Bool) (hlong : 140 ≤ sets) (hsets : sets < 2 ^ 32) :
    let start := conv.warmed numEncodedBytes msg soft sets
    ∃ n, InnerSlice sets n ∧
      (innerRun neon soft start n).historyBuffer.renormalizeCounter + 1 = 128 := by
  intro start
  have hreads : ∀ n ≤ 128, ∃ off, Reads 3060 (trueMetric soft sets n) 1 off
      (innerRun neon soft start n) := fun n hn =>
    reads_innerRun h numEncodedBytes msg soft neon hsets fun j hj => Or.inr (by omega)
  by_contra hnone
  -- else every slice counts up, and the counter leaves its bound
  have hcounts : ∀ n ≤ 128, n ≤ (innerRun neon soft start n).historyBuffer.renormalizeCounter := by
    intro n hn
    induction n with
    | zero => exact Nat.zero_le _
    | succ n ih =>
      obtain ⟨off, hread⟩ := hreads n (by omega)
      have hbelow := ih (by omega)
      rw [innerRun_succ, counter_innerSlice hread.ofCode,
        if_neg fun hlast => hnone ⟨n, Or.inr (by omega), hlast⟩]
      omega
  obtain ⟨off, hread⟩ := hreads 128 (Nat.le_refl 128)
  have hlt := hread.counter_lt
  have hge := hcounts 128 (Nat.le_refl 128)
  omega

/-- A block of 200 slices on a fresh instance, with a slice that renormalizes. -/
theorem never_wraps_fresh :
    NeverWraps false 50 (fun _ => 0) (fun _ => 0xFF) 200 fresh ∧
      (∃ n, InnerSlice 200 n ∧
        (innerRun false (fun _ => 0xFF) (fresh.warmed 50 (fun _ => 0) (fun _ => 0xFF) 200)
          n).historyBuffer.renormalizeCounter + 1 = 128) ∧
      (fresh.decodeSets false 400 50 (fun _ => 0) (some fun _ => 0xFF)).isSome := by
  obtain ⟨hexact, hruns⟩ := never_wraps ready_fresh false 50 (fun _ => 0) (fun _ => 0xFF) 200
  refine ⟨hexact, exists_renormalized ready_fresh 50 _ _ false (by omega) (by omega), ?_⟩
  rw [hruns (by omega)]
  rfl

end Convolutional

end RyFi.Conv
