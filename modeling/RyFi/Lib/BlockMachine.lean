import Mathlib.Data.List.GetD
import Mathlib.Data.List.Range
import RyFi.Lib.Lossy

/-! # Machines that work on blocks

A `Machine` reads blocks of samples out of a buffer and writes blocks into another one: one
call of `process` works on the block it holds from sample `next` on, until it has a block to
hand over or is done with the input.  `Run` is what one thread alone makes of a sequence of
blocks.  What a buffer holds outside of a block is arbitrary, and so is the output buffer
after a block was handed over.

A block that is ready but cannot be handed over is lost, with what is left of the input; runs
count such blocks.
-/

namespace BlockMachine

/-- The block of `size` samples at the start of a buffer. -/
def block {T : Type} (buf : Nat → T) (size : Nat) : List T := (List.range size).map buf

@[simp] theorem block_length {T : Type} (buf : Nat → T) (size : Nat) :
    (block buf size).length = size := by
  rw [block, List.length_map, List.length_range]

theorem block_getElem? {T : Type} (buf : Nat → T) {size i : Nat} (h : i < size) :
    (block buf size)[i]? = some (buf i) := by
  rw [block, List.getElem?_map, List.getElem?_range h, Option.map_some]

/-- A block that was written from the start of a buffer. -/
theorem block_getD {T : Type} (l : List T) (buf : Nat → T) :
    block (fun i => l.getD i (buf i)) l.length = l := by
  refine List.ext_getElem (block_length _ _) fun i hi hi' => ?_
  have hget := block_getElem? (fun i => l.getD i (buf i)) hi'
  rw [List.getElem?_eq_getElem hi, Option.some.injEq] at hget
  rw [hget, List.getD_eq_getElem _ _ hi']

/-- How a call of `process` ends. -/
inductive Outcome where
  /-- A block of `size` samples is to be handed over, the input to be continued at `next`. -/
  | emit (size next : Nat)
  /-- The input is used up; there may be a last block to hand over. -/
  | done (last : Option Nat)

/-- What `process` reads and writes. -/
structure Work (σ I O : Type) where
  state : σ
  input : Nat → I
  output : Nat → O

structure Machine (I O : Type) where
  State : Type
  Start : State → Prop
  /-- `process count next`: on the block of `count` samples, from sample `next` on. -/
  process : Nat → Nat → Work State I O → Work State I O → Outcome → Prop

namespace Machine

variable {I O : Type}

/-- The block a machine holds, and the sample it has come to. -/
structure Held (I : Type) where
  buf : Nat → I
  count : Nat
  next : Nat

structure Config (M : Machine I O) where
  state : M.State
  output : Nat → O
  held : Option (Held I)

/-- One thread alone: the blocks it has taken and sent, and how many it has lost. -/
inductive Run (M : Machine I O) : List (List I) → List (List O) → Nat → M.Config → Prop where
  | start {state : M.State} (starts : M.Start state) (output : Nat → O) :
      Run M [] [] 0 ⟨state, output, none⟩
  | take {taken sent lost state output} (run : Run M taken sent lost ⟨state, output, none⟩)
      (buf : Nat → I) (count : Nat) :
      Run M (taken ++ [block buf count]) sent lost ⟨state, output, some ⟨buf, count, 0⟩⟩
  | emit {taken sent lost state output buf count next state' buf' output' size next'}
      (run : Run M taken sent lost ⟨state, output, some ⟨buf, count, next⟩⟩)
      (call : M.process count next ⟨state, buf, output⟩ ⟨state', buf', output'⟩
        (.emit size next')) (output'' : Nat → O) :
      Run M taken (sent ++ [block output' size]) lost
        ⟨state', output'', some ⟨buf', count, next'⟩⟩
  | emitLost {taken sent lost state output buf count next state' buf' output' size next'}
      (run : Run M taken sent lost ⟨state, output, some ⟨buf, count, next⟩⟩)
      (call : M.process count next ⟨state, buf, output⟩ ⟨state', buf', output'⟩
        (.emit size next')) :
      Run M taken sent (lost + 1) ⟨state', output', none⟩
  | done {taken sent lost state output buf count next state' buf' output'}
      (run : Run M taken sent lost ⟨state, output, some ⟨buf, count, next⟩⟩)
      (call : M.process count next ⟨state, buf, output⟩ ⟨state', buf', output'⟩ (.done none)) :
      Run M taken sent lost ⟨state', output', none⟩
  | last {taken sent lost state output buf count next state' buf' output' size}
      (run : Run M taken sent lost ⟨state, output, some ⟨buf, count, next⟩⟩)
      (call : M.process count next ⟨state, buf, output⟩ ⟨state', buf', output'⟩
        (.done (some size))) (output'' : Nat → O) :
      Run M taken (sent ++ [block output' size]) lost ⟨state', output'', none⟩
  | lastLost {taken sent lost state output buf count next state' buf' output' size}
      (run : Run M taken sent lost ⟨state, output, some ⟨buf, count, next⟩⟩)
      (call : M.process count next ⟨state, buf, output⟩ ⟨state', buf', output'⟩
        (.done (some size))) :
      Run M taken sent (lost + 1) ⟨state', output', none⟩

/-- A machine whose calls always finish can use any blocks. -/
theorem exists_run [Nonempty I] [Nonempty O] {M : Machine I O} (hstart : ∃ state, M.Start state)
    (hcall : ∀ count next state buf output, ∃ work last,
      M.process count next ⟨state, buf, output⟩ work (.done last)) (blocks : List (List I)) :
    ∃ sent config, M.Run blocks sent 0 config ∧ config.held = none := by
  induction blocks using List.reverseRecOn with
  | nil =>
    obtain ⟨state, hstate⟩ := hstart
    exact ⟨[], _, .start hstate fun _ => Classical.arbitrary O, rfl⟩
  | append_singleton blocks b ih =>
    obtain ⟨sent, ⟨state, output, held⟩, hrun, rfl⟩ := ih
    have htake := hrun.take (fun i => b.getD i (Classical.arbitrary I)) b.length
    rw [block_getD] at htake
    obtain ⟨⟨state', buf', output'⟩, last, hprocess⟩ := hcall _ _ _ _ _
    cases last with
    | none => exact ⟨sent, _, htake.done hprocess, rfl⟩
    | some size => exact ⟨_, _, htake.last hprocess output', rfl⟩

/-! ## One block for one block -/

/-- The block that is held, if any. -/
def Config.holds {M : Machine I O} (c : M.Config) : List (List I) :=
  match c.held with
  | none => []
  | some h => [block h.buf h.count]

section

variable {M : Machine I O} {Inv : M.State → Prop} {P : List I → Prop}
  {R : List I → List O → Prop}

/-- Every call uses up its block, if it is one of `P`, and makes one block of it. -/
structure OneForOne (M : Machine I O) (Inv : M.State → Prop) (P : List I → Prop)
    (R : List I → List O → Prop) : Prop where
  start : ∀ {state}, M.Start state → Inv state
  call : ∀ {count next state buf output work outcome}, Inv state → P (block buf count) →
    M.process count next ⟨state, buf, output⟩ work outcome →
    Inv work.state ∧ ∃ size, outcome = .done (some size) ∧
      R (block buf count) (block work.output size)

/-- Such a machine sends one block for each that it has taken and not lost. -/
theorem OneForOne.run (h : OneForOne M Inv P R) {taken : List (List I)} {sent : List (List O)}
    {lost : Nat} {config : M.Config} (hrun : M.Run taken sent lost config)
    (htaken : ∀ x ∈ taken, P x) :
    Inv config.state ∧ ∃ used kept, taken = used ++ config.holds ∧ kept.Sublist used ∧
      kept.length + lost = used.length ∧ List.Forall₂ R kept sent := by
  induction hrun with
  | start starts output => exact ⟨h.start starts, [], [], rfl, .slnil, rfl, .nil⟩
  | take run buf count ih =>
    obtain ⟨hinv, used, kept, hused, hsub, hlen, hall⟩ :=
      ih fun x hx => htaken x (List.mem_append_left _ hx)
    refine ⟨hinv, used, kept, ?_, hsub, hlen, hall⟩
    rw [hused]
    simp only [Config.holds, List.append_nil]
  | emit run call output ih =>
    obtain ⟨hinv, used, kept, hused, -⟩ := ih htaken
    obtain ⟨-, size, houtcome, -⟩ := h.call hinv (htaken _ (by simp [hused, Config.holds])) call
    cases houtcome
  | emitLost run call ih =>
    obtain ⟨hinv, used, kept, hused, -⟩ := ih htaken
    obtain ⟨-, size, houtcome, -⟩ := h.call hinv (htaken _ (by simp [hused, Config.holds])) call
    cases houtcome
  | done run call ih =>
    obtain ⟨hinv, used, kept, hused, -⟩ := ih htaken
    obtain ⟨-, size, houtcome, -⟩ := h.call hinv (htaken _ (by simp [hused, Config.holds])) call
    cases houtcome
  | last run call output ih =>
    obtain ⟨hinv, used, kept, hused, hsub, hlen, hall⟩ := ih htaken
    obtain ⟨hinv', size, houtcome, hblock⟩ :=
      h.call hinv (htaken _ (by simp [hused, Config.holds])) call
    cases houtcome
    refine ⟨hinv', _, _, (List.append_nil _).symm, hused ▸ hsub.append (List.Sublist.refl _), ?_,
      List.rel_append hall (.cons hblock .nil)⟩
    simp [hused, Config.holds] at hlen ⊢
    omega
  | lastLost run call ih =>
    obtain ⟨hinv, used, kept, hused, hsub, hlen, hall⟩ := ih htaken
    obtain ⟨hinv', -⟩ := h.call hinv (htaken _ (by simp [hused, Config.holds])) call
    refine ⟨hinv', _, kept, (List.append_nil _).symm,
      hused ▸ hsub.trans (List.sublist_append_left _ _), ?_, hall⟩
    simp [hused, Config.holds]
    omega

theorem OneForOne.of_imp {Q : List I → Prop} (h : OneForOne M Inv P R) (himp : ∀ x, Q x → P x) :
    OneForOne M Inv Q R where
  start := h.start
  call hinv hblock hcall := h.call hinv (himp _ hblock) hcall

theorem OneForOne.lossy (h : OneForOne M Inv P R) {taken : List (List I)}
    {sent rest : List (List O)} {lost : Nat} {config : M.Config}
    (hrun : M.Run taken (sent ++ rest) lost config) (htaken : ∀ x ∈ taken, P x) :
    Lossy R lost taken sent := by
  obtain ⟨-, used, kept, rfl, hsub, hlen, hall⟩ := h.run hrun htaken
  have hlossy := Lossy.of_sublist (n := lost) hsub hall hlen.ge
  exact (hlossy.append config.holds).of_initial (List.prefix_append sent rest)

/-- With nothing held and nothing lost every block was made into one. -/
theorem OneForOne.all_sent (h : OneForOne M Inv P R) {taken : List (List I)}
    {sent : List (List O)} {config : M.Config} (hrun : M.Run taken sent 0 config)
    (hheld : config.held = none) (htaken : ∀ x ∈ taken, P x) : List.Forall₂ R taken sent := by
  obtain ⟨-, used, kept, rfl, hsub, hlen, hall⟩ := h.run hrun htaken
  have hholds : config.holds = [] := by rw [Config.holds, hheld]
  rw [hholds, List.append_nil, ← hsub.eq_of_length hlen]
  exact hall

/-- A machine whose calls return, on blocks of `P`. -/
def Returning (M : Machine I O) (Inv : M.State → Prop) (P : List I → Prop) : Prop :=
  ∀ {count next state buf} (output : Nat → O), Inv state → P (block buf count) →
    ∃ work outcome, M.process count next ⟨state, buf, output⟩ work outcome

end

/-! ## A stream for a stream -/

section

variable {M : Machine I O} {Inv : List I → M.State → Prop} {F : List I → List O}

/-- Every call uses up its block and sends what `F` of all the samples so far gains by it. -/
structure Streaming (M : Machine I O) (Inv : List I → M.State → Prop) (F : List I → List O) :
    Prop where
  start : ∀ {state}, M.Start state → Inv [] state
  nothing : F [] = []
  call : ∀ {l count next state buf output work outcome}, Inv l state →
    M.process count next ⟨state, buf, output⟩ work outcome →
    Inv (l ++ block buf count) work.state ∧ ∃ last, outcome = .done last ∧
      F (l ++ block buf count) = F l ++ last.elim [] (block work.output)

theorem Streaming.use (h : Streaming M Inv F) {used : List (List I)} {made : List (List O)}
    {count next : Nat} {state buf output work outcome} (hinv : Inv used.flatten state)
    (hmade : F used.flatten = made.flatten)
    (hcall : M.process count next ⟨state, buf, output⟩ work outcome) :
    Inv (used ++ [block buf count]).flatten work.state ∧ ∃ last, outcome = .done last ∧
      F (used ++ [block buf count]).flatten = made.flatten ++ last.elim [] (block work.output) := by
  rw [List.flatten_append, List.flatten_singleton, ← hmade]
  exact h.call hinv hcall

/-- However its input is cut into blocks, such a machine sends `F` of it, but for the blocks
    that are lost. -/
theorem Streaming.run (h : Streaming M Inv F) {taken : List (List I)} {sent : List (List O)}
    {lost : Nat} {config : M.Config} (hrun : M.Run taken sent lost config) :
    ∃ used made, taken = used ++ config.holds ∧ Inv used.flatten config.state ∧
      F used.flatten = made.flatten ∧ sent.Sublist made ∧ made.length = sent.length + lost := by
  induction hrun with
  | start starts output => exact ⟨[], [], rfl, h.start starts, h.nothing, .slnil, rfl⟩
  | take run buf count ih =>
    obtain ⟨used, made, rfl, hrest⟩ := ih
    refine ⟨used, made, ?_, hrest⟩
    simp only [Config.holds, List.append_nil]
  | emit run call output ih =>
    obtain ⟨used, made, -, hinv, hmade, -⟩ := ih
    obtain ⟨-, last, houtcome, -⟩ := h.use hinv hmade call
    cases houtcome
  | emitLost run call ih =>
    obtain ⟨used, made, -, hinv, hmade, -⟩ := ih
    obtain ⟨-, last, houtcome, -⟩ := h.use hinv hmade call
    cases houtcome
  | done run call ih =>
    obtain ⟨used, made, rfl, hinv, hmade, hsub, hlen⟩ := ih
    obtain ⟨hinv', last, houtcome, hgain⟩ := h.use hinv hmade call
    cases houtcome
    exact ⟨_, made, (List.append_nil _).symm, hinv', hgain.trans (List.append_nil _), hsub, hlen⟩
  | @last _ _ _ _ _ _ _ _ _ _ output size run call output' ih =>
    obtain ⟨used, made, rfl, hinv, hmade, hsub, hlen⟩ := ih
    obtain ⟨hinv', last, houtcome, hgain⟩ := h.use hinv hmade call
    cases houtcome
    refine ⟨_, made ++ [block output size], (List.append_nil _).symm, hinv', ?_,
      hsub.append (List.Sublist.refl _), ?_⟩
    · refine hgain.trans ?_
      rw [List.flatten_append, List.flatten_singleton]
      rfl
    · simp only [List.length_append, List.length_singleton]
      omega
  | @lastLost _ _ _ _ _ _ _ _ _ _ output size run call ih =>
    obtain ⟨used, made, rfl, hinv, hmade, hsub, hlen⟩ := ih
    obtain ⟨hinv', last, houtcome, hgain⟩ := h.use hinv hmade call
    cases houtcome
    refine ⟨_, made ++ [block output size], (List.append_nil _).symm, hinv', ?_,
      hsub.trans (List.sublist_append_left _ _), ?_⟩
    · refine hgain.trans ?_
      rw [List.flatten_append, List.flatten_singleton]
      rfl
    · simp only [List.length_append, List.length_singleton]
      omega

/-- With nothing lost it sends all of `F`. -/
theorem Streaming.all_sent (h : Streaming M Inv F) {taken : List (List I)} {sent : List (List O)}
    {config : M.Config} (hrun : M.Run taken sent 0 config) :
    ∃ used, taken = used ++ config.holds ∧ sent.flatten = F used.flatten := by
  obtain ⟨used, made, hused, -, hmade, hsub, hlen⟩ := h.run hrun
  exact ⟨used, hused, by rw [hmade, hsub.eq_of_length hlen.symm]⟩

end

end Machine

end BlockMachine
