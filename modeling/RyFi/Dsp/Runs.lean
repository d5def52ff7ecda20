import RyFi.Dsp.Feeding

/-! # What pipelines do

The two results about pipelines of any blocks: what comes out of each block in any run, and
that a pipeline that is left alone passes on everything.
-/

namespace RyFi.Dsp

open BlockMachine ProcessChain

variable {n : Nat} {T : Nat → Type} {M : ∀ i, Machine (T i) (T (i + 1))}

/-! ## A pipeline that passes its blocks on -/

/-- A block that hands over a copy of what it reads. -/
def copier : Machine Nat Nat where
  State := Unit
  Start _ := True
  process count _ w w' outcome := w' = ⟨w.state, w.input, w.input⟩ ∧ outcome = .done (some count)

theorem copier_advances : Advances copier := fun ⟨_, houtcome⟩ => by cases houtcome

theorem copiers_returns (s : (pipeline 2 fun _ => copier).State) : Returns s :=
  fun _ _ _ _ _ => ⟨_, _, rfl, rfl⟩

theorem exists_copiers : ∃ start : (pipeline 2 fun _ => copier).State, Initial start :=
  exists_initial fun _ => ⟨(), trivial⟩

/-! ## Any run -/

/-- In every interleaving, whatever is stopped and started when: a stream delivers the blocks
    it was given, in order and once, but for at most one that is still on its way; and every
    block of the pipeline has made of what it took what its machine makes of it alone, up to
    one lost block for each time it was stopped. -/
theorem pipeline_runs {start s : (pipeline n M).State} (h : Initial start)
    (hs : (pipeline n M).Reachable start s) :
    (∀ i, i ≤ n → (s.cell i).sent = (s.cell i).taken ∨
      ∃ b, (s.cell i).sent = (s.cell i).taken ++ [b]) ∧
    ∀ i, i < n → Explained (M i) (s.proc i).stops (s.cell i).taken (s.cell (i + 1)).sent := by
  have hholds := holds_reachable h hs
  exact ⟨fun i hi => Link.sent_of_inv (hholds.cell i hi), fun i hi => (hholds.proc i hi).explained⟩

theorem pipeline_runs_copiers : ∃ s : (pipeline 2 fun _ => copier).State,
    (s.cell 0).sent = [[1, 2], [3]] ∧
      Explained copier (s.proc 1).stops (s.cell 1).taken (s.cell 2).sent := by
  obtain ⟨start, hstart⟩ := exists_copiers
  obtain ⟨s, hs, -, -, hsent⟩ := exists_feed hstart (fun _ _ => copier_advances) [[1, 2], [3]]
    fun s _ _ _ => copiers_returns s
  exact ⟨s, hsent, (pipeline_runs hstart hs).2 1 (by decide)⟩

/-! ## Runs of the threads alone -/

/-- Left alone, no run of the threads goes on forever, and where one ends everything that was
    sent has been taken and used up, block by block. -/
theorem pipeline_completes {start s : (pipeline n M).State} (h : Initial start)
    (hs : (pipeline n M).Reachable start s) (hrunning : Running s)
    (hstop : (s.cell n).readerStop = false) (hadvances : ∀ i, i < n → Advances (M i))
    (hreturns : ∀ s' : (pipeline n M).State, (busy n M).Reachable s s' → Returns s') :
    Acc (fun s₂ s₁ => (busy n M).Step s₁ s₂) s ∧
    ∀ s' : (pipeline n M).State, (busy n M).Reachable s s' →
      (∀ s'', ¬ (busy n M).Step s' s'') →
      (∀ i, i ≤ n → (s'.cell i).sent = (s'.cell i).taken) ∧
      ∀ i, i < n → ∃ lost config, lost ≤ (s'.proc i).stops ∧ config.held = none ∧
        (M i).Run (s'.cell i).taken (s'.cell (i + 1)).sent lost config := by
  refine ⟨acc_of_busy h hs hrunning hadvances, fun s' hrun hrest => ?_⟩
  have hreach := reachable_of_busy hs hrun
  have hquiet := quiet_of_busy h hs hrunning hstop hrun hrest
  exact ⟨fun i => drained_link h hreach hquiet (hreturns s' hrun),
    fun i => drained_block h hreach hquiet (hreturns s' hrun)⟩

theorem pipeline_completes_copiers : ∃ s : (pipeline 2 fun _ => copier).State,
    (s.cell 0).promised = [[1, 2]] ∧
      Acc (fun s₂ s₁ => (busy 2 fun _ => copier).Step s₁ s₂) s := by
  obtain ⟨start, hstart⟩ := exists_copiers
  obtain ⟨s, hs⟩ := exists_started hstart 2 (Nat.le_refl 2)
  have hidle := (hs.link 0).1
  obtain ⟨s', hfed⟩ := hs.fed.exists_next hidle [1, 2]
  exact ⟨s', hfed.promised, (pipeline_completes hstart hfed.reach hfed.running hfed.sinkStop
    (fun _ _ => copier_advances) fun s _ => copiers_returns s).1⟩

end RyFi.Dsp
