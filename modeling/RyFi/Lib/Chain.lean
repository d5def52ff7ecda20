import Mathlib.Data.DFinsupp.WellFounded
import Mathlib.Order.Fin.Basic

/-! # Processes along a chain of shared cells

`n` processes and `n + 1` cells: process `i` works on cell `i`, which the one before it also
works on, and on cell `i + 1`, which the one behind it also works on.  The first and the last
cell have an environment at their open end.  Steps interleave in any order.

An `Outline` annotates such a system piece by piece: an invariant of each cell, one of each
process and its two cells, and for each cell what its two sides may do to it.  If every process
keeps its own annotations and is not disturbed by what its neighbours may do, then all of
them hold in every reachable state (`Outline.holds_reachable`).

A `Budget` gives each process an amount that it spends with each of its steps.  A process may
well give the one behind it more to do; if it never gives more to the one before it, then no
run goes on forever (`Budget.Spends.acc`).
-/

namespace ProcessChain

universe u

structure Chain (n : Nat) where
  Cell : Nat → Type u
  Proc : Nat → Type u
  /-- A step of a process, on the cell it reads and on the one it writes. -/
  step : ∀ i, Cell i → Proc i → Cell (i + 1) → Cell i → Proc i → Cell (i + 1) → Prop
  source : Cell 0 → Cell 0 → Prop
  sink : Cell n → Cell n → Prop

@[ext] structure ChainState (Cell Proc : Nat → Type u) where
  cell : ∀ i, Cell i
  proc : ∀ i, Proc i

namespace Chain

variable {n : Nat}

abbrev State (C : Chain.{u} n) : Type u := ChainState C.Cell C.Proc

variable {C : Chain.{u} n}

inductive Step (C : Chain.{u} n) : C.State → C.State → Prop where
  | proc {s s' : C.State} (i : Nat) (lt : i < n)
      (moves : C.step i (s.cell i) (s.proc i) (s.cell (i + 1))
        (s'.cell i) (s'.proc i) (s'.cell (i + 1)))
      (cells : ∀ j, j ≠ i → j ≠ i + 1 → s'.cell j = s.cell j)
      (procs : ∀ j, j ≠ i → s'.proc j = s.proc j) : Step C s s'
  | source {s s' : C.State} (moves : C.source (s.cell 0) (s'.cell 0))
      (cells : ∀ j, j ≠ 0 → s'.cell j = s.cell j) (procs : s'.proc = s.proc) : Step C s s'
  | sink {s s' : C.State} (moves : C.sink (s.cell n) (s'.cell n))
      (cells : ∀ j, j ≠ n → s'.cell j = s.cell j) (procs : s'.proc = s.proc) : Step C s s'

section

variable {C : Chain.{u} n} {s : C.State}

/-- A move of a process is a step of the chain. -/
theorem exists_proc {i : Nat} (lt : i < n) {a : C.Cell i} {p : C.Proc i} {b : C.Cell (i + 1)}
    (moves : C.step i (s.cell i) (s.proc i) (s.cell (i + 1)) a p b) :
    ∃ s', C.Step s s' ∧ s'.cell i = a ∧ s'.proc i = p ∧ s'.cell (i + 1) = b ∧
      (∀ j, j ≠ i → j ≠ i + 1 → s'.cell j = s.cell j) ∧ ∀ j, j ≠ i → s'.proc j = s.proc j := by
  let s' : C.State :=
    ⟨Function.update (Function.update s.cell i a) (i + 1) b, Function.update s.proc i p⟩
  have hinput : s'.cell i = a := by
    simp only [s', Function.update_self, Function.update_of_ne (Nat.ne_of_lt (Nat.lt_succ_self i))]
  have hproc : s'.proc i = p := Function.update_self _ _ _
  have houtput : s'.cell (i + 1) = b := Function.update_self _ _ _
  have hcells : ∀ j, j ≠ i → j ≠ i + 1 → s'.cell j = s.cell j := fun j hj hj' => by
    simp only [s', Function.update_of_ne hj', Function.update_of_ne hj]
  have hprocs : ∀ j, j ≠ i → s'.proc j = s.proc j := fun j hj => Function.update_of_ne hj _ _
  refine ⟨s', .proc i lt ?_ hcells hprocs, hinput, hproc, houtput, hcells, hprocs⟩
  rw [hinput, hproc, houtput]
  exact moves

theorem exists_source {a : C.Cell 0} (moves : C.source (s.cell 0) a) :
    ∃ s', C.Step s s' ∧ s'.cell 0 = a ∧ (∀ j, j ≠ 0 → s'.cell j = s.cell j) ∧ s'.proc = s.proc := by
  let s' : C.State := ⟨Function.update s.cell 0 a, s.proc⟩
  have hcell : s'.cell 0 = a := by simp only [s', Function.update_self]
  have hcells : ∀ j, j ≠ 0 → s'.cell j = s.cell j := fun j hj => Function.update_of_ne hj _ _
  refine ⟨s', .source ?_ hcells rfl, hcell, hcells, rfl⟩
  rw [hcell]
  exact moves

theorem exists_sink {a : C.Cell n} (moves : C.sink (s.cell n) a) :
    ∃ s', C.Step s s' ∧ s'.cell n = a ∧ (∀ j, j ≠ n → s'.cell j = s.cell j) ∧ s'.proc = s.proc := by
  let s' : C.State := ⟨Function.update s.cell n a, s.proc⟩
  have hcell : s'.cell n = a := by simp only [s', Function.update_self]
  have hcells : ∀ j, j ≠ n → s'.cell j = s.cell j := fun j hj => Function.update_of_ne hj _ _
  refine ⟨s', .sink ?_ hcells rfl, hcell, hcells, rfl⟩
  rw [hcell]
  exact moves

end

/-- The states some interleaving leads to. -/
def Reachable (C : Chain.{u} n) (start s : C.State) : Prop :=
  Relation.ReflTransGen C.Step start s

/-- Annotations of the pieces. -/
structure Outline (C : Chain.{u} n) where
  cellInv : ∀ i, C.Cell i → Prop
  procInv : ∀ i, C.Cell i → C.Proc i → C.Cell (i + 1) → Prop
  /-- What the side that writes may do to a cell. -/
  writes : ∀ i, C.Cell i → C.Cell i → Prop
  /-- What the side that reads may do to a cell. -/
  reads : ∀ i, C.Cell i → C.Cell i → Prop
  step_keeps : ∀ i {a p b a' p' b'}, i < n → cellInv i a → cellInv (i + 1) b →
    procInv i a p b → C.step i a p b a' p' b' →
    (cellInv i a' ∧ reads i a a') ∧ (cellInv (i + 1) b' ∧ writes (i + 1) b b') ∧
      procInv i a' p' b'
  source_keeps : ∀ {a a'}, cellInv 0 a → C.source a a' → cellInv 0 a' ∧ writes 0 a a'
  sink_keeps : ∀ {a a'}, cellInv n a → C.sink a a' → cellInv n a' ∧ reads n a a'
  stable_input : ∀ i {a p b a'}, i < n → cellInv i a → procInv i a p b → writes i a a' →
    procInv i a' p b
  stable_output : ∀ i {a p b b'}, i < n → cellInv (i + 1) b → procInv i a p b →
    reads (i + 1) b b' → procInv i a p b'

namespace Outline

variable (O : C.Outline)

/-- All annotations hold. -/
structure Holds (s : C.State) : Prop where
  cell : ∀ i, i ≤ n → O.cellInv i (s.cell i)
  proc : ∀ i, i < n → O.procInv i (s.cell i) (s.proc i) (s.cell (i + 1))

variable {O} {start s s' : C.State}

theorem holds_step (h : O.Holds s) (hstep : C.Step s s') : O.Holds s' := by
  cases hstep with
  | proc i lt moves cells procs =>
    obtain ⟨⟨hin, hreads⟩, ⟨hout, hwrites⟩, hproc⟩ :=
      O.step_keeps i lt (h.cell i (by omega)) (h.cell (i + 1) lt) (h.proc i lt) moves
    constructor
    · intro j hj
      by_cases hji : j = i
      · exact hji ▸ hin
      · by_cases hji' : j = i + 1
        · exact hji' ▸ hout
        · exact cells j hji hji' ▸ h.cell j hj
    · intro j hj
      by_cases hji : j = i
      · exact hji ▸ hproc
      · rw [procs j hji]
        -- a neighbour shares one cell with the process that moved
        by_cases hbehind : j = i + 1
        · subst hbehind
          rw [cells (i + 1 + 1) (by omega) (by omega)]
          exact O.stable_input _ hj (h.cell _ lt) (h.proc _ hj) hwrites
        · rw [cells j hji hbehind]
          by_cases hbefore : j + 1 = i
          · subst hbefore
            exact O.stable_output j hj (h.cell _ hj) (h.proc j hj) hreads
          · rw [cells (j + 1) hbefore (by omega)]
            exact h.proc j hj
  | source moves cells procs =>
    obtain ⟨hcell, hwrites⟩ := O.source_keeps (h.cell 0 (by omega)) moves
    constructor
    · intro j hj
      by_cases hzero : j = 0
      · exact hzero ▸ hcell
      · exact cells j hzero ▸ h.cell j hj
    · intro j hj
      rw [procs, cells (j + 1) (by omega)]
      by_cases hzero : j = 0
      · subst hzero
        exact O.stable_input 0 hj (h.cell 0 (by omega)) (h.proc 0 hj) hwrites
      · exact cells j hzero ▸ h.proc j hj
  | sink moves cells procs =>
    obtain ⟨hcell, hreads⟩ := O.sink_keeps (h.cell n (by omega)) moves
    constructor
    · intro j hj
      by_cases hlast : j = n
      · exact hlast ▸ hcell
      · exact cells j hlast ▸ h.cell j hj
    · intro j hj
      rw [procs, cells j (by omega)]
      by_cases hlast : j + 1 = n
      · subst hlast
        exact O.stable_output j hj (h.cell _ (Nat.le_refl _)) (h.proc j hj) hreads
      · exact cells (j + 1) hlast ▸ h.proc j hj

/-- The rule: annotations that hold at the start hold after every interleaving. -/
theorem holds_reachable (h : O.Holds start) (hs : C.Reachable start s) : O.Holds s := by
  induction hs with
  | refl => exact h
  | tail _ hstep ih => exact holds_step ih hstep

end Outline

/-! ## Runs that end -/

/-- What is left to do, for each process with its two cells and for the two ends. -/
structure Budget (C : Chain.{u} n) where
  source : C.Cell 0 → Nat
  own : ∀ i, C.Cell i → C.Proc i → C.Cell (i + 1) → Nat
  sink : C.Cell n → Nat

namespace Budget

/-- The amount of the side that writes cell `i`, when the cell is `c`. -/
def behind (B : C.Budget) (s : C.State) : ∀ i, C.Cell i → Nat
  | 0, c => B.source c
  | i + 1, c => B.own i (s.cell i) (s.proc i) c

/-- Each step spends of its own amount, and adds nothing to the amount before. -/
structure Spends (B : C.Budget) (inv : C.State → Prop) : Prop where
  keeps : ∀ {s s'}, inv s → C.Step s s' → inv s'
  step : ∀ i {s a p b}, i < n → inv s →
    C.step i (s.cell i) (s.proc i) (s.cell (i + 1)) a p b →
    B.own i a p b < B.own i (s.cell i) (s.proc i) (s.cell (i + 1)) ∧
      B.behind s i a ≤ B.behind s i (s.cell i)
  source : ∀ {s a}, inv s → C.source (s.cell 0) a → B.source a < B.source (s.cell 0)
  sink : ∀ {s a}, inv s → C.sink (s.cell n) a → B.sink a < B.sink (s.cell n) ∧
    B.behind s n a ≤ B.behind s n (s.cell n)

/-- All amounts, those of the sides that write the cells and the one of the sink. -/
def amounts (B : C.Budget) (s : C.State) (k : Fin (n + 2)) : Nat :=
  if k.val ≤ n then B.behind s k (s.cell k) else B.sink (s.cell n)

theorem lex_of_lt {m : Nat} {f g : Fin m → Nat} (k : Fin m) (hlt : f k < g k)
    (hle : ∀ j < k, f j ≤ g j) : Pi.Lex (· < ·) (· < ·) f g := by
  obtain ⟨j, hj, hmin⟩ := WellFounded.has_min (wellFounded_lt (α := Fin m)) {j | f j ≠ g j}
    ⟨k, Nat.ne_of_lt hlt⟩
  have hjk : j ≤ k := not_lt.mp (hmin k (Nat.ne_of_lt hlt))
  refine ⟨j, fun i hi => not_not.mp fun hne => hmin i hne hi, ?_⟩
  rcases lt_or_eq_of_le hjk with hbefore | rfl
  · exact lt_of_le_of_ne (hle j hbefore) hj
  · exact hlt

variable {B : C.Budget} {inv : C.State → Prop} {s s' : C.State}

theorem behind_congr {i : Nat} (c : C.Cell i) (hcell : ∀ j, j < i → s'.cell j = s.cell j)
    (hproc : ∀ j, j < i → s'.proc j = s.proc j) : B.behind s' i c = B.behind s i c := by
  cases i with
  | zero => rfl
  | succ i =>
    rw [behind, behind, hcell i (Nat.lt_succ_self i), hproc i (Nat.lt_succ_self i)]

namespace Spends

/-- A step spends of one amount and adds to none before it. -/
theorem step_lex (h : B.Spends inv) (hs : inv s) (hstep : C.Step s s') :
    Pi.Lex (· < ·) (· < ·) (B.amounts s') (B.amounts s) := by
  cases hstep with
  | proc i lt moves cells procs =>
    obtain ⟨hown, hbehind⟩ := h.step i lt hs moves
    refine lex_of_lt ⟨i + 1, by omega⟩ ?_ fun j hj => ?_
    · rw [amounts, amounts, if_pos (by exact lt), if_pos (by exact lt)]
      exact hown
    · have hji : j.val < i + 1 := hj
      rw [amounts, amounts, if_pos (by omega), if_pos (by omega),
        behind_congr _ (fun k hk => cells k (by omega) (by omega)) fun k hk => procs k (by omega)]
      by_cases hlast : j.val = i
      · subst hlast
        exact hbehind
      · rw [cells j.val hlast (by omega)]
  | source moves cells procs =>
    refine lex_of_lt ⟨0, by omega⟩ ?_ fun j hj => ?_
    · rw [amounts, amounts, if_pos (Nat.zero_le n), if_pos (Nat.zero_le n)]
      exact h.source hs moves
    · exact absurd hj (Nat.not_lt_zero _)
  | sink moves cells procs =>
    obtain ⟨hown, hbehind⟩ := h.sink hs moves
    refine lex_of_lt ⟨n + 1, by omega⟩ ?_ fun j hj => ?_
    · rw [amounts, amounts, if_neg (Nat.not_succ_le_self n), if_neg (Nat.not_succ_le_self n)]
      exact hown
    · have hjn : j.val < n + 1 := hj
      rw [amounts, amounts, if_pos (by omega), if_pos (by omega),
        behind_congr _ (fun k hk => cells k (by omega)) fun k _ => by rw [procs]]
      by_cases hlast : j.val = n
      · rw [hlast]
        exact hbehind
      · rw [cells j.val hlast]

/-- The rule: no run from a state of the invariant goes on forever. -/
theorem acc (h : B.Spends inv) (hs : inv s) : Acc (fun s' s => C.Step s s') s := by
  have hwf : WellFounded fun f g : Fin (n + 2) → Nat => Pi.Lex (· < ·) (· < ·) f g :=
    Pi.Lex.wellFounded (· < ·) fun _ => wellFounded_lt
  induction hrank : B.amounts s using hwf.induction generalizing s with
  | _ f ih =>
    refine Acc.intro s fun s' hstep => ?_
    exact ih _ (hrank ▸ h.step_lex hs hstep) (h.keeps hs hstep) rfl

end Spends

end Budget

/-- A run that cannot go on forever can be taken to where it rests. -/
theorem exists_rest {C : Chain.{u} n} {s : C.State} (h : Acc (fun s' s => C.Step s s') s) :
    ∃ s', C.Reachable s s' ∧ ∀ s'', ¬ C.Step s' s'' := by
  induction h with
  | intro s _ ih =>
    by_cases hstep : ∃ s₁, C.Step s s₁
    · obtain ⟨s₁, hstep⟩ := hstep
      obtain ⟨s', hrun, hrest⟩ := ih s₁ hstep
      exact ⟨s', .head hstep hrun, hrest⟩
    · exact ⟨s, .refl, fun s'' hs'' => hstep ⟨s'', hs''⟩⟩

end Chain

end ProcessChain
