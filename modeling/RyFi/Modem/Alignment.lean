import RyFi.Modem.Framing

/-! # Frame alignment under sync errors

While a sync word is shifted in behind the sync word of the frame before, the register holds
a cyclic mixture of the two.  `mixture_far` is the finite fact the alignment rests on: every
such mixture has Hamming distance at least 22 to every rotation, which ten bit errors do not
make up for.  `frame_run` handles one frame and `stays_aligned` a stream of them.
-/

namespace RyFi.Modem

open CLoop ShiftRegister

/-! ## Distances of sync words -/

namespace Deframer

/-- `distance` counts the bits that differ. -/
theorem distance_eq (a b : BitVec 64) : distance a b = hamming a b := by
  have hloop := @forLoop_induct _ 0 64 (fun _ (s : Nat × BitVec 64 × BitVec 64) =>
      (s.1 + (if (s.2.1 &&& 1) ≠ (s.2.2 &&& 1) then 1 else 0), s.2.1 >>> 1, s.2.2 >>> 1))
    (0, a, b)
    (fun i s => s = (((Finset.range i).filter fun j => a.getLsbD j ≠ b.getLsbD j).card,
      a >>> i, b >>> i)) (by omega) (by simp) ?_
  · rw [distance, hloop]; rfl
  · rintro i s - - rfl
    have hlow : ((a >>> i) &&& 1 ≠ (b >>> i) &&& 1) ↔ a.getLsbD i ≠ b.getLsbD i := by
      have hbit : ∀ x : BitVec 64, (x >>> i) &&& 1 = if x.getLsbD i then 1 else 0 := by
        intro x
        apply BitVec.eq_of_getLsbD_eq
        intro j hj
        by_cases hzero : j = 0
        · subst hzero
          cases hx : x.getLsbD i <;> simp [hx]
        · cases hx : x.getLsbD i <;> simp [hzero]
      rw [hbit, hbit]
      cases a.getLsbD i <;> cases b.getLsbD i <;> simp
    simp only [Prod.mk.injEq]
    refine ⟨?_, by rw [BitVec.shiftRight_add], by rw [BitVec.shiftRight_add]⟩
    rw [Finset.range_add_one, Finset.filter_insert]
    by_cases hne : a.getLsbD i ≠ b.getLsbD i
    · rw [if_pos (hlow.mpr hne), if_pos hne, Finset.card_insert_of_notMem (by simp)]
    · rw [if_neg (fun h => hne (hlow.mp h)), if_neg hne, Nat.add_zero]

end Deframer

theorem shiftAll_wordSyms : ∀ rot, rot < 4 → ∀ reg : BitVec 64,
    shiftAll reg (wordSyms (syncRots rot)) = syncRots rot := by
  intro rot hrot reg
  rw [shiftAll_full reg 0 (by simp [wordSyms, SYNC_SYMS, SYNC_BITS])]
  revert rot
  decide +kernel

/-- The rotations of the sync word are far from each other. -/
theorem rotations_far : ∀ r, r < 4 → ∀ t, t < 4 → t ≠ r →
    32 ≤ Deframer.distance (syncRots r) (syncRots t) := by
  decide +kernel

/-- A cyclic mixture of a rotated sync word with itself is far from every rotation. -/
theorem mixture_far : ∀ r, r < 4 → ∀ k, k < 32 → 1 ≤ k → ∀ t, t < 4 →
    22 ≤ Deframer.distance (shiftAll (syncRots r) ((wordSyms (syncRots r)).take k))
      (syncRots t) := by
  simp only [Deframer.distance_eq]
  decide +kernel

/-! ## The search for a rotation -/

namespace Deframer

section

variable {F : Type} [SampleType F] {d : Deframer F} {r : Nat}

/-- Start reading a frame in rotation `r`. -/
def lock (d : Deframer F) (r : Nat) : Deframer F :=
  { d with knownRot := r, symRot := symRots r, recv := FRAME_SYMS, outCount := 0 }

theorem testRot_eq (d : Deframer F) (i : Nat) :
    d.testRot i =
      if distance d.shift (syncRots ((d.knownRot + i) % 4)) < 6 then
        d.lock ((d.knownRot + i) % 4)
      else d := by
  have hmask : (d.knownRot + i) &&& 3 = (d.knownRot + i) % 4 :=
    Nat.and_two_pow_sub_one_eq_mod _ 2
  simp only [testRot, hmask, lock]

/-- No rotation is close. -/
theorem search_far (hfar : ∀ t, t < 4 → 6 ≤ distance d.shift (syncRots t)) :
    forLoop 0 4 (fun i d => d.testRot i) d = d := by
  refine forLoop_induct (fun _ s => s = d) (by omega) rfl ?_
  rintro i s - - rfl
  have := hfar ((s.knownRot + i) % 4) (Nat.mod_lt _ (by omega))
  rw [testRot_eq, if_neg (by omega)]

/-- Only rotation `r` is close. -/
theorem search_close (hr : r < 4) (hclose : distance d.shift (syncRots r) < 6)
    (hfar : ∀ t, t < 4 → t ≠ r → 6 ≤ distance d.shift (syncRots t)) :
    forLoop 0 4 (fun i d => d.testRot i) d = d.lock r := by
  -- the first hit is `r`; the rotations tried after it are others
  have hinv := @forLoop_induct _ 0 4 (fun i (d : Deframer F) => d.testRot i) d
    (fun i s => (s = d ∧ ∀ j, j < i → (d.knownRot + j) % 4 ≠ r) ∨ (s = d.lock r ∧ 1 ≤ i))
    (by omega) (Or.inl ⟨rfl, fun j hj => by omega⟩) ?_
  · obtain ⟨-, hnone⟩ | ⟨hlock, -⟩ := hinv
    · have h0 := hnone 0 (by omega)
      have h1 := hnone 1 (by omega)
      have h2 := hnone 2 (by omega)
      have h3 := hnone 3 (by omega)
      omega
    · exact hlock
  · rintro i s - hi (⟨rfl, hnone⟩ | ⟨rfl, hpos⟩)
    · rw [testRot_eq]
      by_cases hhit : (s.knownRot + i) % 4 = r
      · rw [hhit, if_pos hclose]
        exact Or.inr ⟨rfl, by omega⟩
      · have := hfar _ (Nat.mod_lt _ (by omega)) hhit
        rw [if_neg (by omega)]
        refine Or.inl ⟨rfl, fun j hj => ?_⟩
        by_cases hji : j = i
        · rw [hji]; exact hhit
        · exact hnone j (by omega)
    · have hother : ((d.lock r).knownRot + i) % 4 ≠ r := by
        change (r + i) % 4 ≠ r
        omega
      have : 6 ≤ distance (d.lock r).shift (syncRots (((d.lock r).knownRot + i) % 4)) :=
        hfar _ (Nat.mod_lt _ (by omega)) hother
      rw [testRot_eq, if_neg (by omega)]
      exact Or.inr ⟨rfl, by omega⟩

/-! ## Buffers -/

theorem run_nil (d : Deframer F) : d.run [] = (d, []) := rfl

theorem run_snoc (d : Deframer F) (input : List (ComplexT F)) (sym : ComplexT F) :
    d.run (input ++ [sym]) =
      (((d.run input).1.step sym).1,
        (d.run input).2 ++ ((d.run input).1.step sym).2.toList) := by
  simp [run, List.foldl_append]

theorem run_append (d : Deframer F) (input input' : List (ComplexT F)) :
    d.run (input ++ input') =
      (((d.run input).1.run input').1, (d.run input).2 ++ ((d.run input).1.run input').2) := by
  induction input' using List.reverseRecOn with
  | nil => simp [run_nil]
  | append_singleton input' sym ih =>
    rw [← List.append_assoc, run_snoc, run_snoc, ih, List.append_assoc]

/-- Where the stream is cut into buffers makes no difference. -/
theorem runBuffers_eq (d : Deframer F) (inputs : List (List (ComplexT F))) :
    d.runBuffers inputs = d.run inputs.flatten := by
  induction inputs using List.reverseRecOn with
  | nil => rfl
  | append_singleton inputs input ih =>
    have hfold : d.runBuffers (inputs ++ [input]) =
        (((d.runBuffers inputs).1.run input).1,
          (d.runBuffers inputs).2 ++ ((d.runBuffers inputs).1.run input).2) := by
      simp [runBuffers, List.foldl_append]
    rw [hfold, ih, List.flatten_append, run_append]
    simp

end

end Deframer

/-! ## Frames with sync errors -/

/-- A frame as received in rotation `r`: of its sync word at most 5 hard-decided bits are
    wrong, its payload is arbitrary. -/
structure NoisyFrame (F : Type) [SampleType F] (r : Nat) where
  sync : List (ComplexT F)
  payload : List (ComplexT F)
  sync_length : sync.length = SYNC_SYMS
  payload_length : payload.length = FRAME_SYMS
  sync_close : Deframer.distance (shiftAll 0 (sync.map Deframer.hardSym)) (syncRots r) ≤ 5

namespace NoisyFrame

variable {F : Type} [SampleType F] {r : Nat}

def symbols (f : NoisyFrame F r) : List (ComplexT F) := f.sync ++ f.payload

/-- The block the deframer is to emit. -/
def block (f : NoisyFrame F r) : List (ComplexT F) := f.payload.map (· * symRots r)

theorem symbols_length (f : NoisyFrame F r) : f.symbols.length = 8200 := by
  rw [symbols, List.length_append, f.sync_length, f.payload_length]
  rfl

end NoisyFrame

namespace Deframer

variable {F : Type} [SampleType F] {d : Deframer F} {r : Nat} {f : NoisyFrame F r}

/-- Just after a frame, or after any other sync word in rotation `r`. -/
structure Aligned (r : Nat) (d : Deframer F) : Prop where
  recv : d.recv = 0
  close : distance d.shift (syncRots r) ≤ 5

/-- The first `k` sync symbols of a frame are in the register. -/
structure Hunting (f : NoisyFrame F r) (k : Nat) (d : Deframer F) : Prop where
  recv : d.recv = 0
  shift : ∃ old, distance old (syncRots r) ≤ 5 ∧
    d.shift = shiftAll old ((f.sync.map hardSym).take k)

/-- The first `k` payload symbols of a frame are in the output buffer. -/
structure Reading (f : NoisyFrame F r) (k : Nat) (d : Deframer F) : Prop where
  recv : d.recv + k = FRAME_SYMS
  more : d.recv ≠ 0
  outCount : d.outCount = k
  symRot : d.symRot = symRots r
  close : distance d.shift (syncRots r) ≤ 5
  written : (List.range k).map d.writeBuf = (f.payload.take k).map (· * symRots r)

theorem shift_full (f : NoisyFrame F r) (old : BitVec 64) :
    distance (shiftAll old (f.sync.map hardSym)) (syncRots r) ≤ 5 := by
  have hlen : 2 * (f.sync.map hardSym).length = 64 := by
    rw [List.length_map, f.sync_length]
    rfl
  rw [shiftAll_full old 0 hlen]
  exact f.sync_close

/-- A mixture of two sync words with at most 5 errors each is close to no rotation. -/
theorem hunting_far (hr : r < 4) {old : BitVec 64} (hold : distance old (syncRots r) ≤ 5)
    {k : Nat} (hk : 1 ≤ k) (hk' : k < 32) {t : Nat} (ht : t < 4) :
    6 ≤ distance (shiftAll old ((f.sync.map hardSym).take k)) (syncRots t) := by
  have hlen : 2 * (f.sync.map hardSym).length = 64 := by
    rw [List.length_map, f.sync_length]
    rfl
  have hlen' : 2 * (wordSyms (syncRots r)).length = 64 := by simp [wordSyms, SYNC_SYMS, SYNC_BITS]
  have hwindow := hamming_window old (syncRots r) 0 hlen hlen' (k := k) (by omega)
    (by omega)
  have hnew := f.sync_close
  have hmix := mixture_far r hr k hk' hk t ht
  rw [shiftAll_wordSyms r hr, ← distance_eq, ← distance_eq, ← distance_eq] at hwindow
  have htriangle := hamming_triangle
    (shiftAll (syncRots r) ((wordSyms (syncRots r)).take k))
    (shiftAll old ((f.sync.map hardSym).take k)) (syncRots t)
  rw [← distance_eq, ← distance_eq, ← distance_eq] at htriangle
  have hcomm : distance (shiftAll (syncRots r) ((wordSyms (syncRots r)).take k))
      (shiftAll old ((f.sync.map hardSym).take k)) =
      distance (shiftAll old ((f.sync.map hardSym).take k))
        (shiftAll (syncRots r) ((wordSyms (syncRots r)).take k)) := by
    rw [distance_eq, distance_eq, hamming_comm]
  omega

/-- A word close to one rotation is far from the others. -/
theorem close_far (hr : r < 4) {word : BitVec 64} (hclose : distance word (syncRots r) ≤ 5)
    {t : Nat} (ht : t < 4) (hne : t ≠ r) : 6 ≤ distance word (syncRots t) := by
  have hrot := rotations_far r hr t ht hne
  have htriangle := hamming_triangle (syncRots r) word (syncRots t)
  have hcomm := hamming_comm (syncRots r) word
  rw [distance_eq] at hrot hclose ⊢
  omega

/-- Searching: the next symbol is shifted in, and the last one locks. -/
theorem step_hunting (hr : r < 4) {k : Nat} (hk : k < 32) {sym : ComplexT F}
    (hsym : f.sync[k]? = some sym) (h : Hunting f k d) :
    (d.step sym).2 = none ∧ (k + 1 < 32 → Hunting f (k + 1) (d.step sym).1) ∧
      (k + 1 = 32 → Reading f 0 (d.step sym).1) := by
  obtain ⟨old, hold, hshift⟩ := h.shift
  have hstep : d.step sym =
      (forLoop 0 4 (fun i d => d.testRot i)
        { d with shift := shiftIn d.shift (hardSym sym) }, none) := by
    simp only [step, h.recv, ne_eq, not_true_eq_false, if_false]
  have hnext : shiftIn d.shift (hardSym sym) =
      shiftAll old ((f.sync.map hardSym).take (k + 1)) := by
    rw [List.take_add_one, shiftAll_append, ← hshift, List.getElem?_map, hsym]
    rfl
  rw [hstep]
  refine ⟨rfl, fun hlt => ?_, fun heq => ?_⟩
  · rw [search_far]
    · exact ⟨h.recv, old, hold, hnext⟩
    · intro t ht
      simp only [hnext]
      exact hunting_far hr hold (by omega) hlt ht
  · have hfull : distance (shiftIn d.shift (hardSym sym)) (syncRots r) ≤ 5 := by
      rw [hnext, List.take_of_length_le (by simp [f.sync_length, SYNC_SYMS, SYNC_BITS]; omega)]
      exact shift_full f old
    rw [search_close hr (r := r)]
    · exact ⟨rfl, by simp [lock, FRAME_SYMS], rfl, rfl, hfull, rfl⟩
    · exact Nat.lt_succ_of_le hfull
    · intro t ht hne
      exact close_far hr hfull ht hne

/-- Reading: the next symbol is stored, and the last one completes the block. -/
theorem step_reading {k : Nat} {sym : ComplexT F} (hsym : f.payload[k]? = some sym)
    (h : Reading f k d) :
    (k + 1 < FRAME_SYMS → (d.step sym).2 = none ∧ Reading f (k + 1) (d.step sym).1) ∧
      (k + 1 = FRAME_SYMS → (d.step sym).2 = some f.block ∧ Aligned r (d.step sym).1) := by
  have hrecv := h.recv
  have hwritten : (List.range (k + 1)).map
      (Function.update d.writeBuf k (sym * symRots r)) =
        (f.payload.take (k + 1)).map (· * symRots r) := by
    rw [List.range_succ, List.take_add_one, List.map_append, List.map_append, ← h.written, hsym]
    congr 1
    · apply List.map_congr_left
      intro i hi
      rw [Function.update_of_ne]
      have := List.mem_range.mp hi
      omega
    · simp
  constructor
  · intro hlt
    have hmore : d.recv - 1 ≠ 0 := by omega
    simp only [step, h.more, ne_eq, not_false_eq_true, if_true, hmore, if_false, h.symRot,
      h.outCount]
    exact ⟨trivial, by change d.recv - 1 + (k + 1) = _; omega, hmore, rfl, rfl, h.close,
      hwritten⟩
  · intro hlast
    have hdone : d.recv - 1 = 0 := by omega
    simp only [step, h.more, ne_eq, not_false_eq_true, if_true, hdone, h.symRot, h.outCount]
    refine ⟨?_, ⟨rfl, h.close⟩⟩
    rw [hwritten, NoisyFrame.block, List.take_of_length_le (by rw [f.payload_length]; omega)]

/-! ## Streams -/

theorem take_succ_of_lt {α : Type} {l : List α} {k : Nat} (hk : k < l.length) :
    ∃ sym, l[k]? = some sym ∧ l.take (k + 1) = l.take k ++ [sym] := by
  have hsym := List.getElem?_eq_getElem hk
  refine ⟨l[k], hsym, ?_⟩
  rw [List.take_add_one, hsym, Option.toList_some]

/-- The sync word up to symbol `k`. -/
theorem run_sync_part (hr : r < 4) (h : Aligned r d) (f : NoisyFrame F r) {k : Nat}
    (hk : k < 32) :
    (d.run (f.sync.take k)).2 = [] ∧ Hunting f k (d.run (f.sync.take k)).1 := by
  induction k with
  | zero => exact ⟨rfl, h.recv, d.shift, h.close, rfl⟩
  | succ k ih =>
    have hlen : f.sync.length = 32 := f.sync_length
    obtain ⟨hnone, hhunting⟩ := ih (by omega)
    obtain ⟨sym, hsym, htake⟩ := take_succ_of_lt (l := f.sync) (k := k) (by omega)
    obtain ⟨hstep, hnext, -⟩ := step_hunting hr (by omega) hsym hhunting
    rw [htake, run_snoc, hnone, hstep]
    exact ⟨rfl, hnext hk⟩

/-- The whole sync word locks. -/
theorem run_sync (hr : r < 4) (h : Aligned r d) (f : NoisyFrame F r) :
    (d.run f.sync).2 = [] ∧ Reading f 0 (d.run f.sync).1 := by
  have hlen : f.sync.length = 32 := f.sync_length
  obtain ⟨hnone, hhunting⟩ := run_sync_part hr h f (k := 31) (by omega)
  obtain ⟨sym, hsym, htake⟩ := take_succ_of_lt (l := f.sync) (k := 31) (by omega)
  obtain ⟨hstep, -, hlock⟩ := step_hunting hr (by omega) hsym hhunting
  rw [List.take_of_length_le (by omega)] at htake
  rw [htake, run_snoc, hnone, hstep]
  exact ⟨rfl, hlock rfl⟩

/-- The payload up to symbol `k`. -/
theorem run_payload_part (h : Reading f 0 d) {k : Nat} (hk : k < FRAME_SYMS) :
    (d.run (f.payload.take k)).2 = [] ∧ Reading f k (d.run (f.payload.take k)).1 := by
  induction k with
  | zero => exact ⟨rfl, h⟩
  | succ k ih =>
    have hlen := f.payload_length
    obtain ⟨hnone, hreading⟩ := ih (by omega)
    obtain ⟨sym, hsym, htake⟩ := take_succ_of_lt (l := f.payload) (k := k) (by omega)
    obtain ⟨hstep, hnext⟩ := (step_reading hsym hreading).1 hk
    rw [htake, run_snoc, hnone, hstep]
    exact ⟨rfl, hnext⟩

/-- The whole payload gives the block, and alignment again. -/
theorem run_payload (h : Reading f 0 d) :
    (d.run f.payload).2 = [f.block] ∧ Aligned r (d.run f.payload).1 := by
  have hlen : f.payload.length = 8168 := f.payload_length
  obtain ⟨hnone, hreading⟩ := run_payload_part h (k := 8167) (by decide)
  obtain ⟨sym, hsym, htake⟩ := take_succ_of_lt (l := f.payload) (k := 8167) (by omega)
  obtain ⟨hstep, haligned⟩ := (step_reading hsym hreading).2 rfl
  rw [List.take_of_length_le (by omega)] at htake
  rw [htake, run_snoc, hnone, hstep]
  exact ⟨rfl, haligned⟩

/-- A frame that is not complete gives nothing. -/
theorem run_frame_part (hr : r < 4) (h : Aligned r d) (f : NoisyFrame F r) {k : Nat}
    (hk : k < 8200) : (d.run (f.symbols.take k)).2 = [] := by
  have hlen : f.sync.length = 32 := f.sync_length
  rw [NoisyFrame.symbols, List.take_append, hlen]
  by_cases hsync : k < 32
  · rw [show k - 32 = 0 by omega, List.take_zero, List.append_nil]
    exact (run_sync_part hr h f hsync).1
  · obtain ⟨hnone, hreading⟩ := run_sync hr h f
    rw [List.take_of_length_le (by omega), run_append, hnone]
    exact (run_payload_part hreading (show k - 32 < 8168 by omega)).1

/-- A whole frame gives its block, and alignment again. -/
theorem run_frame (hr : r < 4) (h : Aligned r d) (f : NoisyFrame F r) :
    (d.run f.symbols).2 = [f.block] ∧ Aligned r (d.run f.symbols).1 := by
  obtain ⟨hnone, hreading⟩ := run_sync hr h f
  obtain ⟨hblock, haligned⟩ := run_payload hreading
  rw [NoisyFrame.symbols, run_append, hnone, hblock]
  exact ⟨rfl, haligned⟩

/-- A stream of frames, ending anywhere: the blocks of the frames that are complete. -/
theorem run_stream (hr : r < 4) (h : Aligned r d) (frames : List (NoisyFrame F r))
    {stream : List (ComplexT F)} (hstream : stream <+: frames.flatMap NoisyFrame.symbols) :
    (d.run stream).2 = (frames.take (stream.length / 8200)).map NoisyFrame.block := by
  induction frames generalizing d stream with
  | nil =>
    rw [List.flatMap_nil, List.prefix_nil] at hstream
    simp [hstream, run_nil]
  | cons f frames ih =>
    have hlen := f.symbols_length
    rw [List.flatMap_cons] at hstream
    by_cases hshort : stream.length < 8200
    · have htake : stream = f.symbols.take stream.length := by
        rw [List.prefix_iff_eq_take] at hstream
        rw [List.take_append_of_le_length (by omega)] at hstream
        exact hstream
      have hnone := run_frame_part hr h f hshort
      rw [← htake] at hnone
      rw [hnone, Nat.div_eq_of_lt hshort]
      rfl
    · obtain ⟨rest, rfl⟩ : f.symbols <+: stream :=
        List.prefix_of_prefix_length_le (List.prefix_append _ _) hstream (by omega)
      rw [List.prefix_append_right_inj] at hstream
      obtain ⟨hblock, haligned⟩ := run_frame hr h f
      have hcount : (f.symbols ++ rest).length / 8200 = rest.length / 8200 + 1 := by
        rw [List.length_append, hlen]
        omega
      rw [run_append, hblock, ih haligned hstream, hcount]
      rfl

/-- The deframer stays aligned over any stream of frames with tolerable sync errors, cut
    into buffers anywhere and ending anywhere: it emits the blocks of the frames that are
    complete, and nothing else. -/
theorem stays_aligned (hr : r < 4) (hrecv : d.recv = 0)
    (hclose : distance d.shift (syncRots r) ≤ 5) (frames : List (NoisyFrame F r))
    (inputs : List (List (ComplexT F)))
    (hstream : inputs.flatten <+: frames.flatMap NoisyFrame.symbols) :
    (d.runBuffers inputs).2 =
      (frames.take (inputs.flatten.length / 8200)).map NoisyFrame.block := by
  rw [runBuffers_eq]
  exact run_stream hr ⟨hrecv, hclose⟩ frames hstream

/-- A constant payload behind a sync word in rotation `r` with these bits wrong. -/
def noisyFrame (r : Nat) (errors : BitVec 64) (payload : ComplexT Rat)
    (hfew : distance (shiftAll 0 (((wordSyms (syncRots r ^^^ errors)).map
      (QPSK_SYMBOLS : BitVec 2 → ComplexT Rat)).map hardSym)) (syncRots r) ≤ 5) :
    NoisyFrame Rat r where
  sync := (wordSyms (syncRots r ^^^ errors)).map QPSK_SYMBOLS
  payload := List.replicate FRAME_SYMS payload
  sync_length := by simp [wordSyms]
  payload_length := List.length_replicate
  sync_close := hfew

def firstFrame : NoisyFrame Rat ROT_90_DEG :=
  noisyFrame ROT_90_DEG 0xF000000000000001 ⟨1, 0⟩ (by decide +kernel)

def secondFrame : NoisyFrame Rat ROT_90_DEG :=
  noisyFrame ROT_90_DEG 0x1111100000 ⟨0, 1⟩ (by decide +kernel)

/-- Two frames with five errors in each sync word, behind a register with two, cut in the
    middle of the second sync word. -/
theorem stays_aligned_two_frames :
    ((init (⟨1, 0⟩ : ComplexT Rat) (syncRots ROT_90_DEG ^^^ 0x3) (fun _ => ⟨0, 0⟩)
      (fun _ => ⟨0, 0⟩)).runBuffers
      [firstFrame.symbols ++ secondFrame.symbols.take 10, secondFrame.symbols.drop 10]).2 =
      [firstFrame.block, secondFrame.block] := by
  have hflat : [firstFrame.symbols ++ secondFrame.symbols.take 10,
      secondFrame.symbols.drop 10].flatten = firstFrame.symbols ++ secondFrame.symbols := by
    simp
  rw [stays_aligned (r := ROT_90_DEG) (by decide) rfl (by decide +kernel)
    [firstFrame, secondFrame] _ (by rw [hflat]; simp), hflat, List.length_append,
    firstFrame.symbols_length, secondFrame.symbols_length]
  rfl

end Deframer

end RyFi.Modem
