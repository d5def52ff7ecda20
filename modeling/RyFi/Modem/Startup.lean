import RyFi.Modem.Alignment
import Mathlib.Data.Nat.Find

/-! # A new deframer

The constructor of `Deframer` leaves the shift register as it is.  Until 32 symbols are in,
the search compares the sync words with a window that still ends in the old content:
`Premature` says that such a window is close to a rotation.  Two runs of new deframers are
compared through `Agree`, which forgets what no later step reads.
-/

namespace RyFi.Modem

open CLoop ShiftRegister

namespace Deframer

variable {F : Type} [SampleType F]

/-- `hardSym` of every sample. -/
def hardSyms (input : List (ComplexT F)) : List (BitVec 2) := input.map hardSym

/-- Some rotation of the sync word is close to the register. -/
def Match (reg : BitVec 64) : Prop := ∃ t, t < 4 ∧ distance reg (syncRots t) < 6

/-- Before 32 symbols of the stream are in, the register matches. -/
def Premature (shift : BitVec 64) (stream : List (ComplexT F)) : Prop :=
  ∃ k, 1 ≤ k ∧ k < 32 ∧ k ≤ stream.length ∧ Match (shiftAll shift (hardSyms (stream.take k)))

instance (reg : BitVec 64) : Decidable (Match reg) :=
  decidable_of_iff (∃ t, t ∈ List.range 4 ∧ distance reg (syncRots t) < 6) (by simp [Match])

theorem Premature.mono {shift : BitVec 64} {received stream : List (ComplexT F)}
    (h : Premature shift received) (hpart : received <+: stream) : Premature shift stream := by
  obtain ⟨k, hk, hlt, hle, hmatch⟩ := h
  refine ⟨k, hk, hlt, Nat.le_trans hle hpart.length_le, ?_⟩
  obtain ⟨rest, rfl⟩ := hpart
  rwa [List.take_append_of_le_length hle]

/-! ## One step of the search -/

section

variable {d d' : Deframer F}

theorem step_search (hrecv : d.recv = 0) (sym : ComplexT F) :
    d.step sym = (forLoop 0 4 (fun i d => d.testRot i)
      { d with shift := shiftIn d.shift (hardSym sym) }, none) := by
  simp only [step, hrecv, ne_eq, not_true_eq_false, if_false]

theorem step_of_not_match (hrecv : d.recv = 0) {sym : ComplexT F}
    (hfar : ¬ Match (shiftIn d.shift (hardSym sym))) :
    d.step sym = ({ d with shift := shiftIn d.shift (hardSym sym) }, none) := by
  rw [step_search hrecv, search_far]
  intro t ht
  by_contra hlt
  exact hfar ⟨t, ht, by simpa using hlt⟩

theorem step_of_close {r : Nat} (hr : r < 4) (hrecv : d.recv = 0) {sym : ComplexT F}
    (hclose : distance (shiftIn d.shift (hardSym sym)) (syncRots r) < 6) :
    d.step sym =
      (({ d with shift := shiftIn d.shift (hardSym sym) } : Deframer F).lock r, none) := by
  have hlock := search_close (d := { d with shift := shiftIn d.shift (hardSym sym) }) hr hclose
    fun t ht hne => close_far hr (Nat.le_of_lt_succ hclose) ht hne
  rw [step_search hrecv, hlock]

theorem step_reads (hrecv : d.recv ≠ 0) (sym : ComplexT F) :
    (d.step sym).1.recv = d.recv - 1 ∧
      ((d.step sym).2 = none ↔ d.recv ≠ 1) := by
  by_cases hlast : d.recv - 1 = 0
  · have hone : d.recv = 1 := by omega
    simp [step, hone]
  · have hmore : d.recv ≠ 1 := by omega
    simp [step, hrecv, hlast, hmore]

/-! ## The earliest block -/

/-- No block is complete before this many symbols. -/
def due (d : Deframer F) : Nat := if d.recv = 0 then FRAME_SYMS + 1 else d.recv

theorem step_due (hdue : 1 < d.due) (sym : ComplexT F) :
    (d.step sym).2 = none ∧ d.due - 1 ≤ (d.step sym).1.due := by
  by_cases hrecv : d.recv = 0
  · have hfull : d.due = FRAME_SYMS + 1 := if_pos hrecv
    rw [hfull, Nat.add_sub_cancel]
    by_cases hmatch : Match (shiftIn d.shift (hardSym sym))
    · obtain ⟨r, hr, hclose⟩ := hmatch
      rw [step_of_close hr hrecv hclose]
      exact ⟨rfl, Nat.le_refl _⟩
    · rw [step_of_not_match hrecv hmatch]
      refine ⟨rfl, ?_⟩
      simp [due, hrecv]
  · have hlen : d.due = d.recv := if_neg hrecv
    obtain ⟨hnext, hnone⟩ := step_reads hrecv sym
    refine ⟨hnone.mpr (by omega), ?_⟩
    have hleft : (d.step sym).1.due = d.recv - 1 := by
      rw [due, hnext, if_neg (by omega)]
    omega

/-- Too few symbols give no block. -/
theorem run_quiet {input : List (ComplexT F)} (hlen : input.length < d.due) :
    (d.run input).2 = [] ∧ d.due - input.length ≤ (d.run input).1.due := by
  induction input using List.reverseRecOn with
  | nil => exact ⟨rfl, Nat.le_refl _⟩
  | append_singleton input sym ih =>
    rw [List.length_append, List.length_singleton] at hlen ⊢
    obtain ⟨hnone, hdue⟩ := ih (by omega)
    obtain ⟨hstep, hnext⟩ := step_due (d := (d.run input).1) (by omega) sym
    rw [run_snoc, hnone, hstep]
    exact ⟨rfl, Nat.le_trans (by omega) hnext⟩

theorem run_reads {input : List (ComplexT F)} (hlen : input.length < d.recv) :
    (d.run input).1.recv = d.recv - input.length := by
  induction input using List.reverseRecOn with
  | nil => rfl
  | append_singleton input sym ih =>
    rw [List.length_append, List.length_singleton] at hlen ⊢
    have hrecv := ih (by omega)
    rw [run_snoc, (step_reads (by omega) sym).1, hrecv]
    omega

/-- The last symbol of a frame completes a block. -/
theorem run_block {input : List (ComplexT F)} (hrecv : d.recv ≠ 0)
    (hlen : input.length = d.recv) : (d.run input).2 ≠ [] := by
  obtain ⟨init, sym, rfl⟩ : ∃ init sym, input = init ++ [sym] := by
    refine ⟨input.dropLast, input.getLast (fun h => hrecv ?_),
      (List.dropLast_append_getLast _).symm⟩
    rw [← hlen, h, List.length_nil]
  rw [List.length_append, List.length_singleton] at hlen
  have hone : (d.run init).1.recv = 1 := by
    rw [run_reads (by omega)]
    omega
  rw [run_snoc]
  cases hstep : ((d.run init).1.step sym).2 with
  | none => exact absurd hone ((step_reads (by omega) sym).2.mp hstep)
  | some block => simp

/-! ## Searching without a match -/

/-- The search goes on while no window matches. -/
theorem run_search {input : List (ComplexT F)} (hrecv : d.recv = 0)
    (hfar : ∀ k, 1 ≤ k → k ≤ input.length →
      ¬ Match (shiftAll d.shift (hardSyms (input.take k)))) :
    d.run input = ({ d with shift := shiftAll d.shift (hardSyms input) }, []) := by
  induction input using List.reverseRecOn with
  | nil => rfl
  | append_singleton input sym ih =>
    rw [List.length_append, List.length_singleton] at hfar
    have hbefore := ih fun k hk hle => by
      rw [← List.take_append_of_le_length hle]
      exact hfar k hk (by omega)
    have hlast := hfar (input.length + 1) (by omega) (Nat.le_refl _)
    rw [List.take_of_length_le (by simp), hardSyms, List.map_append, shiftAll_append] at hlast
    have hstep := step_of_not_match
      (d := { d with shift := shiftAll d.shift (hardSyms input) }) hrecv hlast
    rw [run_snoc, hbefore, hstep, hardSyms, hardSyms, List.map_append, shiftAll_append]
    rfl

/-- A new deframer that has locked has matched. -/
theorem premature_of_lock {stream received : List (ComplexT F)} (hrecv : d.recv = 0)
    (hpart : received <+: stream) (hshort : received.length < 32)
    (hlock : (d.run received).1.recv ≠ 0) : Premature d.shift stream := by
  by_contra hpre
  refine hlock ?_
  rw [run_search hrecv]
  · exact hrecv
  · intro k hk hle hmatch
    have hearly : Premature d.shift received := ⟨k, hk, by omega, hle, hmatch⟩
    exact hpre (hearly.mono hpart)

/-- The first match locks. -/
theorem lock_of_premature {stream : List (ComplexT F)} (hrecv : d.recv = 0)
    (hpre : Premature d.shift stream) :
    ∃ k, k < 32 ∧ k ≤ stream.length ∧ (d.run (stream.take k)).1.recv ≠ 0 := by
  classical
  obtain ⟨hk, hlt, hle, hmatch⟩ := Nat.find_spec hpre
  generalize hfirst : Nat.find hpre = k at hk hlt hle hmatch
  refine ⟨k, hlt, hle, ?_⟩
  obtain ⟨k, rfl⟩ : ∃ j, k = j + 1 := ⟨k - 1, by omega⟩
  have hsym : stream[k]? = some stream[k] := List.getElem?_eq_getElem (by omega)
  have hsearch : d.run (stream.take k) =
      ({ d with shift := shiftAll d.shift (hardSyms (stream.take k)) }, []) := by
    refine run_search hrecv fun j hj hjk hclose => ?_
    rw [List.length_take] at hjk
    rw [List.take_take, Nat.min_eq_left (by omega)] at hclose
    exact Nat.find_min hpre (m := j) (by omega) ⟨hj, by omega, by omega, hclose⟩
  rw [List.take_add_one, hsym, hardSyms, List.map_append, shiftAll_append] at hmatch
  rw [List.take_add_one, hsym, Option.toList_some, run_snoc, hsearch]
  obtain ⟨r, hr, hclose⟩ := hmatch
  rw [step_of_close (d := { d with shift := shiftAll d.shift (hardSyms (stream.take k)) })
    hr hrecv hclose]
  exact Nat.succ_ne_zero 8167

/-! ## Two runs -/

/-- The two deframers differ in nothing that a later step reads. -/
structure Agree (d d' : Deframer F) : Prop where
  recv : d.recv = d'.recv
  knownRot : d.knownRot = d'.knownRot
  /-- The oldest symbol of the register is shifted out before the next comparison. -/
  shift : d.shift <<< 2 = d'.shift <<< 2
  outCount : d.recv ≠ 0 → d.outCount = d'.outCount
  symRot : d.recv ≠ 0 → d.symRot = d'.symRot
  written : d.recv ≠ 0 → ∀ i, i < d.outCount → d.writeBuf i = d'.writeBuf i

theorem Agree.step (h : Agree d d') (sym : ComplexT F) :
    (d.step sym).2 = (d'.step sym).2 ∧ Agree (d.step sym).1 (d'.step sym).1 := by
  -- both receivers hunt or both read: their counters agree
  by_cases hrecv : d.recv = 0
  · have hrecv' : d'.recv = 0 := h.recv ▸ hrecv
    have hshift : shiftIn d.shift (hardSym sym) = shiftIn d'.shift (hardSym sym) := by
      rw [shiftIn, shiftIn, h.shift]
    by_cases hmatch : Match (shiftIn d.shift (hardSym sym))
    · obtain ⟨r, hr, hclose⟩ := hmatch
      rw [step_of_close hr hrecv hclose, step_of_close hr hrecv' (hshift ▸ hclose)]
      refine ⟨rfl, rfl, rfl, by simp only [lock, hshift], fun _ => rfl, fun _ => rfl, ?_⟩
      exact fun _ i hi => absurd hi (Nat.not_lt_zero i)
    · rw [step_of_not_match hrecv hmatch, step_of_not_match hrecv' (hshift ▸ hmatch)]
      refine ⟨rfl, h.recv, h.knownRot, by simp only [hshift], ?_, ?_, ?_⟩ <;>
        exact fun hne => absurd hrecv hne
  · have hrecv' : d'.recv ≠ 0 := h.recv ▸ hrecv
    have hcount := h.outCount hrecv
    have hwritten : ∀ i, i < d.outCount + 1 →
        Function.update d.writeBuf d.outCount (sym * d.symRot) i =
          Function.update d'.writeBuf d'.outCount (sym * d'.symRot) i := by
      intro i hi
      rw [← hcount, h.symRot hrecv]
      by_cases hlast : i = d.outCount
      · rw [hlast, Function.update_self, Function.update_self]
      · rw [Function.update_of_ne hlast, Function.update_of_ne hlast,
          h.written hrecv i (by omega)]
    by_cases hdone : d.recv - 1 = 0
    · have hdone' : d'.recv - 1 = 0 := h.recv ▸ hdone
      simp only [Deframer.step, ne_eq, hrecv, hrecv', not_false_eq_true, if_true, hdone, hdone']
      refine ⟨?_, rfl, h.knownRot, h.shift, ?_, ?_, ?_⟩
      · rw [← hcount]
        congr 1
        exact List.map_congr_left fun i hi => by rw [hwritten i (List.mem_range.mp hi), hcount]
      all_goals exact fun hne => absurd rfl hne
    · have hdone' : d'.recv - 1 ≠ 0 := h.recv ▸ hdone
      simp only [Deframer.step, ne_eq, hrecv, hrecv', not_false_eq_true, if_true, hdone, hdone',
        if_false]
      exact ⟨trivial, by rw [h.recv], h.knownRot, h.shift, fun _ => by rw [hcount],
        fun _ => h.symRot hrecv, fun _ => hwritten⟩

theorem Agree.run (h : Agree d d') (input : List (ComplexT F)) :
    (d.run input).2 = (d'.run input).2 := by
  have hrun : (d.run input).2 = (d'.run input).2 ∧ Agree (d.run input).1 (d'.run input).1 := by
    induction input using List.reverseRecOn with
    | nil => exact ⟨rfl, h⟩
    | append_singleton input sym ih =>
      obtain ⟨hsame, hagree⟩ := ih
      obtain ⟨hstep, hnext⟩ := hagree.step sym
      rw [run_snoc, run_snoc, hsame, hstep]
      exact ⟨rfl, hnext⟩
  exact hrun.1

/-- After 31 symbols the old content is in the oldest symbol only. -/
theorem shiftAll_low (reg reg' : BitVec 64) {syms : List (BitVec 2)} (hlen : syms.length = 31) :
    shiftAll reg syms <<< 2 = shiftAll reg' syms <<< 2 := by
  apply BitVec.eq_of_getLsbD_eq
  intro i hi
  rw [BitVec.getLsbD_shiftLeft, BitVec.getLsbD_shiftLeft]
  by_cases hlow : i < 2
  · simp [hlow]
  · rw [getLsbD_shiftAll_new reg reg' syms (by omega)]

/-- Two new deframers of which neither matches too early. -/
theorem run_same {stream : List (ComplexT F)} (hrecv : d.recv = 0) (hrecv' : d'.recv = 0)
    (hrot : d.knownRot = d'.knownRot) (hpre : ¬ Premature d.shift stream)
    (hpre' : ¬ Premature d'.shift stream) : (d.run stream).2 = (d'.run stream).2 := by
  have hfar : ∀ {shift : BitVec 64}, ¬ Premature shift stream → ∀ k, 1 ≤ k →
      k ≤ (stream.take 31).length →
        ¬ Match (shiftAll shift (hardSyms ((stream.take 31).take k))) := by
    intro shift hpre k hk hle hmatch
    rw [List.length_take] at hle
    rw [List.take_take, Nat.min_eq_left (by omega)] at hmatch
    exact hpre ⟨k, hk, by omega, by omega, hmatch⟩
  have hhead := run_search hrecv (hfar hpre)
  have hhead' := run_search hrecv' (hfar hpre')
  rw [← List.take_append_drop 31 stream, run_append, run_append, hhead, hhead']
  by_cases hlen : stream.length < 31
  · rw [List.drop_of_length_le (by omega)]
    rfl
  · -- the 32nd symbol shifts the last of the old content out
    have hagree : Agree { d with shift := shiftAll d.shift (hardSyms (stream.take 31)) }
        { d' with shift := shiftAll d'.shift (hardSyms (stream.take 31)) } :=
      ⟨hrecv.trans hrecv'.symm, hrot, shiftAll_low _ _ (by simp [hardSyms]; omega),
        fun hne => absurd hrecv hne, fun hne => absurd hrecv hne, fun hne => absurd hrecv hne⟩
    rw [hagree.run]

theorem exists_lock_register : ∀ sym : BitVec 2,
    ∃ r, r < 4 ∧ shiftIn (syncRots r >>> 2) sym = syncRots r := by
  decide +kernel

theorem not_match_zero : ∀ sym : BitVec 2, ¬ Match (shiftIn 0 sym) := by
  decide +kernel

end

/-! ## Dependence on the initial content -/

section

variable {symRot : ComplexT F} {writeBuf readBuf : Nat → ComplexT F} {shift shift' : BitVec 64}

/-- A new deframer that locks on the first symbol has a block when another is still waiting. -/
theorem run_differ {sym : ComplexT F} {payload : List (ComplexT F)}
    (hlen : payload.length = FRAME_SYMS) (hmatch : Match (shiftIn shift (hardSym sym)))
    (hfar : ¬ Match (shiftIn shift' (hardSym sym))) :
    ((init symRot shift writeBuf readBuf).run (sym :: payload)).2 ≠
      ((init symRot shift' writeBuf readBuf).run (sym :: payload)).2 := by
  obtain ⟨r, hr, hclose⟩ := hmatch
  have hlock := step_of_close (d := init symRot shift writeBuf readBuf) hr rfl hclose
  have hwait := step_of_not_match (d := init symRot shift' writeBuf readBuf) rfl hfar
  have hone : ∀ d : Deframer F, d.run [sym] = ((d.step sym).1, (d.step sym).2.toList) :=
    fun d => rfl
  rw [← List.singleton_append, run_append, run_append, hone, hone, hlock, hwait]
  have hblock := run_block (d := ({ init symRot shift writeBuf readBuf with
    shift := shiftIn shift (hardSym sym) } : Deframer F).lock r) (Nat.succ_ne_zero 8167) hlen
  have hdue : payload.length < due ({ init symRot shift' writeBuf readBuf with
      shift := shiftIn shift' (hardSym sym) } : Deframer F) := by
    rw [hlen]
    exact Nat.lt_succ_self _
  have hquiet := (run_quiet hdue).1
  intro hsame
  exact hblock (hsame.trans hquiet)

/-- Over a whole stream no content makes a difference iff the stream is too short for a block. -/
theorem run_same_iff (symRot : ComplexT F) (shift : BitVec 64) (writeBuf readBuf : Nat → ComplexT F)
    (stream : List (ComplexT F)) :
    (∀ shift' received, received <+: stream →
        ((init symRot shift writeBuf readBuf).run received).2 =
          ((init symRot shift' writeBuf readBuf).run received).2) ↔
      stream.length ≤ FRAME_SYMS := by
  constructor
  · intro hsame
    by_contra hlong
    obtain ⟨sym, rest, rfl⟩ : ∃ sym rest, stream = sym :: rest :=
      List.exists_cons_of_ne_nil fun h => hlong (by rw [h]; exact Nat.zero_le _)
    rw [List.length_cons] at hlong
    have hlen : (rest.take FRAME_SYMS).length = FRAME_SYMS := by
      rw [List.length_take]
      omega
    have hpart : sym :: rest.take FRAME_SYMS <+: sym :: rest :=
      List.cons_prefix_cons.mpr ⟨rfl, List.take_prefix _ _⟩
    by_cases hmatch : Match (shiftIn shift (hardSym sym))
    · exact run_differ hlen hmatch (not_match_zero (hardSym sym)) (hsame 0 _ hpart)
    · obtain ⟨r, hr, hreg⟩ := exists_lock_register (hardSym sym)
      have hclose : Match (shiftIn (syncRots r >>> 2) (hardSym sym)) := by
        rw [hreg]
        exact ⟨r, hr, by rw [distance_eq, hamming_self]; omega⟩
      exact run_differ hlen hclose hmatch (hsame (syncRots r >>> 2) _ hpart).symm
  · intro hshort shift' received hpart
    have hquiet : ∀ shift, ((init symRot shift writeBuf readBuf).run received).2 = [] :=
      fun shift => (run_quiet (Nat.lt_succ_of_le (Nat.le_trans hpart.length_le hshort))).1
    rw [hquiet, hquiet]

/-- No lock before 32 symbols iff no early window matches. -/
theorem locks_late_iff (symRot : ComplexT F) (shift : BitVec 64)
    (writeBuf readBuf : Nat → ComplexT F) (stream : List (ComplexT F)) :
    (∀ received, received <+: stream →
        ((init symRot shift writeBuf readBuf).run received).1.recv ≠ 0 → 32 ≤ received.length) ↔
      ¬ Premature shift stream := by
  constructor
  · intro hlate hpre
    obtain ⟨k, hlt, hle, hlock⟩ := lock_of_premature
      (d := init symRot shift writeBuf readBuf) rfl hpre
    have hreceived := hlate _ (List.take_prefix k stream) hlock
    rw [List.length_take] at hreceived
    omega
  · intro hpre received hpart hlock
    by_contra hshort
    exact hpre (premature_of_lock (d := init symRot shift writeBuf readBuf) rfl hpart
      (by omega) hlock)

omit [SampleType F] in
/-- Where a buffer ends makes no difference to a statement about every part received. -/
theorem forall_buffers {stream : List (ComplexT F)} (P : List (ComplexT F) → Prop) :
    (∀ inputs : List (List (ComplexT F)), inputs.flatten <+: stream → P inputs.flatten) ↔
      ∀ received, received <+: stream → P received := by
  refine ⟨fun h received hpart => ?_, fun h inputs hpart => h _ hpart⟩
  have := h [received]
  rw [List.flatten_singleton] at this
  exact this hpart

/-- What the initial content of the register decides: over a whole stream nothing iff the
    stream is too short for a block; a lock before 32 symbols iff an early window matches; and
    contents of which no early window matches are alike. -/
theorem startup_independent_iff (symRot : ComplexT F) (shift : BitVec 64)
    (writeBuf readBuf : Nat → ComplexT F) (stream : List (ComplexT F)) :
    ((∀ (shift' : BitVec 64) (inputs : List (List (ComplexT F))), inputs.flatten <+: stream →
        ((init symRot shift writeBuf readBuf).runBuffers inputs).2 =
          ((init symRot shift' writeBuf readBuf).runBuffers inputs).2) ↔
      stream.length ≤ FRAME_SYMS) ∧
    ((∀ inputs : List (List (ComplexT F)), inputs.flatten <+: stream →
        ((init symRot shift writeBuf readBuf).runBuffers inputs).1.recv ≠ 0 →
          32 ≤ inputs.flatten.length) ↔
      ¬ Premature shift stream) ∧
    (∀ symRot' shift' writeBuf' readBuf', ¬ Premature shift stream → ¬ Premature shift' stream →
      ∀ inputs : List (List (ComplexT F)), inputs.flatten <+: stream →
        ((init symRot shift writeBuf readBuf).runBuffers inputs).2 =
          ((init symRot' shift' writeBuf' readBuf').runBuffers inputs).2) := by
  simp only [runBuffers_eq]
  refine ⟨?_, ?_, ?_⟩
  · rw [← run_same_iff symRot shift writeBuf readBuf stream]
    exact forall_congr' fun shift' => forall_buffers fun received =>
      ((init symRot shift writeBuf readBuf).run received).2 =
        ((init symRot shift' writeBuf readBuf).run received).2
  · rw [← locks_late_iff symRot shift writeBuf readBuf stream]
    exact forall_buffers fun received =>
      ((init symRot shift writeBuf readBuf).run received).1.recv ≠ 0 → 32 ≤ received.length
  · intro symRot' shift' writeBuf' readBuf' hpre hpre' inputs hpart
    exact run_same rfl rfl rfl (fun h => hpre (h.mono hpart)) fun h => hpre' (h.mono hpart)

/-- The register holds all of the sync word but its last symbol, which is then received. -/
theorem startup_differs :
    ((init (⟨1, 0⟩ : ComplexT Rat) (SYNC_WORD >>> 2) (fun _ => ⟨0, 0⟩) fun _ => ⟨0, 0⟩).run
        (List.replicate 8169 ⟨1, 1⟩)).2 ≠
      ((init (⟨1, 0⟩ : ComplexT Rat) 0 (fun _ => ⟨0, 0⟩) fun _ => ⟨0, 0⟩).run
        (List.replicate 8169 ⟨1, 1⟩)).2 := by
  rw [List.replicate_succ]
  exact run_differ List.length_replicate (by decide +kernel) (by decide +kernel)

end

end Deframer

end RyFi.Modem
