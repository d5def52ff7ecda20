import RyFi.Modem.Receiver

/-! # Safety of the extraction loop

The loop ends on every frame (`Extract.variant_decreases`), keeps the partial packet well
formed, and its accesses are in bounds exactly when no implausible `firstPacket` is used.
The plausibility check of the source stands only in the branch for non-consecutive frames,
so `Receiver.Plausible` has to ask for it in the other branch.
-/

namespace RyFi.Modem

open CLoop

@[simp] theorem FRAME_DATA_SIZE_eq : FRAME_DATA_SIZE = 886 := rfl

@[simp] theorem MAX_CONTENT_SIZE_eq : MAX_CONTENT_SIZE = 65535 := rfl

@[simp] theorem PKT_OFFS_NONE_toNat : PKT_OFFS_NONE.toNat = 65535 := rfl

/-! ## What one iteration does -/

namespace Extract

variable {frame : Frame} {beyond : Nat → UInt8} {s : Extract}

/-- The number of bytes one iteration copies of a partial packet. -/
def readable (s : Extract) : Nat :=
  min (s.pktExpected.toNat - s.pktRead) (FRAME_DATA_SIZE - s.frameRead)

/-- The partial packet ends in the frame and no further packet is marked. -/
theorem readPacket_last (complete : s.pktRead + s.readable ≥ s.pktExpected.toNat)
    (last : s.lastPacket = true ∨ frame.firstPacket = PKT_OFFS_NONE) :
    s.readPacket frame beyond =
      { s with
        pktBuffer :=
          copyRange s.pktBuffer s.pktRead (frame.contentAt beyond) s.frameRead s.readable
        pktExpected := 0
        pktRead := 0
        frameRead := FRAME_DATA_SIZE
        delivered := s.delivered ++ [packet
          (copyRange s.pktBuffer s.pktRead (frame.contentAt beyond) s.frameRead s.readable)
          s.pktExpected]
        accesses := s.accesses ++ [.content s.frameRead s.readable,
          .pktBuffer s.pktRead s.readable] ++ [.pktBuffer 0 s.pktExpected.toNat] } := by
  unfold readable at complete
  simp only [readPacket, if_pos complete, if_pos last]
  rfl

/-- The partial packet ends in the frame and another one is marked. -/
theorem readPacket_more (complete : s.pktRead + s.readable ≥ s.pktExpected.toNat)
    (more : ¬ (s.lastPacket = true ∨ frame.firstPacket = PKT_OFFS_NONE)) :
    s.readPacket frame beyond =
      { s with
        pktBuffer :=
          copyRange s.pktBuffer s.pktRead (frame.contentAt beyond) s.frameRead s.readable
        pktExpected := 0
        pktRead := 0
        frameRead := s.frameRead + s.readable
        delivered := s.delivered ++ [packet
          (copyRange s.pktBuffer s.pktRead (frame.contentAt beyond) s.frameRead s.readable)
          s.pktExpected]
        accesses := s.accesses ++ [.content s.frameRead s.readable,
          .pktBuffer s.pktRead s.readable] ++ [.pktBuffer 0 s.pktExpected.toNat] } := by
  unfold readable at complete
  simp only [readPacket, if_pos complete, if_neg more]
  rfl

/-- The frame ends inside the partial packet. -/
theorem readPacket_pending (incomplete : s.pktRead + s.readable < s.pktExpected.toNat) :
    s.readPacket frame beyond =
      { s with
        pktBuffer :=
          copyRange s.pktBuffer s.pktRead (frame.contentAt beyond) s.frameRead s.readable
        pktRead := s.pktRead + s.readable
        frameRead := s.frameRead + s.readable
        accesses := s.accesses ++ [.content s.frameRead s.readable,
          .pktBuffer s.pktRead s.readable] } := by
  have hlt : ¬ s.pktRead + s.readable ≥ s.pktExpected.toNat := by omega
  unfold readable at hlt
  simp only [readPacket, if_neg hlt]
  rfl

theorem readSize_short (short : FRAME_DATA_SIZE - s.frameRead < 2) :
    s.readSize frame beyond =
      { s with frameRead := FRAME_DATA_SIZE, pktExpected := 0, pktRead := 0 } := by
  simp only [readSize, if_pos short]

/-- Where the next size field is read: the first one at `frame.firstPacket`. -/
def sizeOffset (frame : Frame) (s : Extract) : Nat :=
  if s.firstPacket then frame.firstPacket.toNat else s.frameRead

theorem readSize_room (room : ¬ FRAME_DATA_SIZE - s.frameRead < 2) :
    s.readSize frame beyond =
      { s with
        firstPacket := false
        lastPacket := s.sizeOffset frame == frame.lastPacket.toNat
        pktExpected := Frame.word (frame.contentAt beyond (s.sizeOffset frame))
          (frame.contentAt beyond (s.sizeOffset frame + 1))
        accesses := s.accesses ++ [.content (s.sizeOffset frame) 1,
          .content (s.sizeOffset frame + 1) 1]
        frameRead := s.sizeOffset frame + 2 } := by
  simp only [readSize, if_neg room]
  rfl

/-! ## Termination -/

theorem running_iff : s.running = true ↔ s.frameRead < FRAME_DATA_SIZE := by
  simp only [running, decide_eq_true_eq]

theorem toNat_pos_of_ne {x : UInt16} (h : x ≠ 0) : 0 < x.toNat := by
  rcases Nat.eq_zero_or_pos x.toNat with hx | hx
  · exact absurd (UInt16.toNat_inj.mp (by simpa using hx)) h
  · exact hx

theorem variant_decreases (s : Extract) (h : s.running = true) :
    (s.step frame beyond).variant < s.variant := by
  have hrun : s.frameRead < 886 := running_iff.mp h
  by_cases hexp : s.pktExpected ≠ 0
  · simp only [step, if_pos hexp]
    have hread : s.readable = min (s.pktExpected.toNat - s.pktRead) (886 - s.frameRead) := rfl
    by_cases complete : s.pktRead + s.readable ≥ s.pktExpected.toNat
    · by_cases last : s.lastPacket = true ∨ frame.firstPacket = PKT_OFFS_NONE
      · rw [readPacket_last complete last]
        simp only [variant, if_pos hexp, FRAME_DATA_SIZE_eq, ne_eq, not_true_eq_false, if_false]
        omega
      · rw [readPacket_more complete last]
        simp only [variant, if_pos hexp, FRAME_DATA_SIZE_eq, ne_eq, not_true_eq_false, if_false]
        omega
    · rw [readPacket_pending (by omega)]
      simp only [variant, if_pos hexp, FRAME_DATA_SIZE_eq]
      omega
  · simp only [step, if_neg hexp]
    by_cases short : FRAME_DATA_SIZE - s.frameRead < 2
    · rw [readSize_short short]
      simp only [variant, if_neg hexp, FRAME_DATA_SIZE_eq, ne_eq, not_true_eq_false, if_false]
      omega
    · rw [readSize_room short]
      simp only [FRAME_DATA_SIZE_eq] at short
      simp only [variant, if_neg hexp, FRAME_DATA_SIZE_eq, Bool.false_eq_true, if_false]
      cases hfirst : s.firstPacket
      · simp only [sizeOffset, hfirst, Bool.false_eq_true, if_false]
        split <;> omega
      · simp only [if_true]
        split <;> omega

/-! ## Well-formed partial packets -/

/-- A partial packet is really partial; without one nothing is read. -/
def Wf (s : Extract) : Prop :=
  s.pktRead < s.pktExpected.toNat ∨ s.pktExpected = 0 ∧ s.pktRead = 0

theorem wf_readSize (hexp : s.pktExpected = 0) (hwf : s.Wf) :
    (s.readSize frame beyond).Wf := by
  have hread : s.pktRead = 0 := by
    rcases hwf with h | h
    · simp [hexp] at h
    · exact h.2
  by_cases short : FRAME_DATA_SIZE - s.frameRead < 2
  · rw [readSize_short short]; exact Or.inr ⟨rfl, rfl⟩
  · rw [readSize_room short]
    by_cases hzero : Frame.word (frame.contentAt beyond (s.sizeOffset frame))
        (frame.contentAt beyond (s.sizeOffset frame + 1)) = 0
    · exact Or.inr ⟨hzero, hread⟩
    · exact Or.inl (by simpa [hread] using toNat_pos_of_ne hzero)

theorem wf_readPacket : (s.readPacket frame beyond).Wf := by
  by_cases complete : s.pktRead + s.readable ≥ s.pktExpected.toNat
  · by_cases last : s.lastPacket = true ∨ frame.firstPacket = PKT_OFFS_NONE
    · rw [readPacket_last complete last]; exact Or.inr ⟨rfl, rfl⟩
    · rw [readPacket_more complete last]; exact Or.inr ⟨rfl, rfl⟩
  · rw [readPacket_pending (by omega)]; exact Or.inl (by simpa using complete)

theorem wf_step (hwf : s.Wf) : (s.step frame beyond).Wf := by
  by_cases hexp : s.pktExpected ≠ 0
  · simp only [step, if_pos hexp]; exact wf_readPacket
  · simp only [step, if_neg hexp]; exact wf_readSize (not_not.mp hexp) hwf

theorem wf_loop (hwf : s.Wf) : (s.loop frame beyond).Wf :=
  (whileVariant_induct variant_decreases Wf hwf fun _ h _ => wf_step h).1

/-! ## The accesses only grow -/

theorem mem_accesses_step {a : Access} (h : a ∈ s.accesses) :
    a ∈ (s.step frame beyond).accesses := by
  by_cases hexp : s.pktExpected ≠ 0
  · simp only [step, if_pos hexp]
    by_cases complete : s.pktRead + s.readable ≥ s.pktExpected.toNat
    · by_cases last : s.lastPacket = true ∨ frame.firstPacket = PKT_OFFS_NONE
      · rw [readPacket_last complete last]; simp [h]
      · rw [readPacket_more complete last]; simp [h]
    · rw [readPacket_pending (by omega)]; simp [h]
  · simp only [step, if_neg hexp]
    by_cases short : FRAME_DATA_SIZE - s.frameRead < 2
    · rw [readSize_short short]; exact h
    · rw [readSize_room short]; simp [h]

theorem mem_accesses_loop {a : Access} (h : a ∈ s.accesses) :
    a ∈ (s.loop frame beyond).accesses :=
  (whileVariant_induct variant_decreases (fun s => a ∈ s.accesses) h
    fun _ h _ => mem_accesses_step h).1

theorem loop_unfold (h : s.running = true) :
    s.loop frame beyond = (s.step frame beyond).loop frame beyond :=
  whileVariant_of_cond variant_decreases h

theorem loop_of_not_running (h : s.running = false) : s.loop frame beyond = s :=
  whileVariant_of_not h

/-! ## Bounds -/

/-- If the loop still jumps to `frame.firstPacket`, it finds two bytes there. -/
def JumpSafe (frame : Frame) (s : Extract) : Prop :=
  s.firstPacket = false ∨ frame.firstPacket.toNat ≤ 884 ∨ 884 < s.frameRead ∨
    s.pktExpected ≠ 0 ∧ (frame.firstPacket = PKT_OFFS_NONE ∨
      884 < s.frameRead + (s.pktExpected.toNat - s.pktRead))

/-- The loop invariant of the safe runs. -/
structure Safe (frame : Frame) (s : Extract) : Prop where
  wf : s.Wf
  jump : JumpSafe frame s
  inBounds : ∀ a ∈ s.accesses, a.InBounds

theorem inBounds_content {offset length : Nat} (h : length = 0 ∨ offset + length ≤ 886) :
    (Access.content offset length).InBounds := by
  intro i hi
  simp only [FRAME_DATA_SIZE_eq]
  omega

theorem inBounds_pktBuffer {offset length : Nat} (h : offset + length ≤ 65535) :
    (Access.pktBuffer offset length).InBounds := by
  intro i hi
  simp only [MAX_CONTENT_SIZE_eq]
  omega

theorem safe_readPacket (hexp : s.pktExpected ≠ 0) (hrun : s.frameRead < 886)
    (h : Safe frame s) : Safe frame (s.readPacket frame beyond) := by
  have hread : s.readable = min (s.pktExpected.toNat - s.pktRead) (886 - s.frameRead) := rfl
  have hsize := s.pktExpected.toNat_lt
  have hwf : s.pktRead < s.pktExpected.toNat := by
    rcases h.wf with hlt | ⟨hzero, -⟩
    · exact hlt
    · exact absurd hzero hexp
  -- the two copies, and the read of the whole packet when it is handed over
  have hcontent : (Access.content s.frameRead s.readable).InBounds :=
    inBounds_content (Or.inr (by omega))
  have hbuffer : (Access.pktBuffer s.pktRead s.readable).InBounds :=
    inBounds_pktBuffer (by omega)
  have hwhole : (Access.pktBuffer 0 s.pktExpected.toNat).InBounds :=
    inBounds_pktBuffer (by omega)
  have hjump := h.jump
  refine ⟨wf_readPacket, ?_, ?_⟩
  · by_cases complete : s.pktRead + s.readable ≥ s.pktExpected.toNat
    · by_cases last : s.lastPacket = true ∨ frame.firstPacket = PKT_OFFS_NONE
      · rw [readPacket_last complete last]
        exact Or.inr (Or.inr (Or.inl (by simp)))
      · rw [readPacket_more complete last]
        simp only [JumpSafe, not_or] at hjump last ⊢
        rcases hjump with hf | hf | hf | ⟨-, hf | hf⟩
        · exact Or.inl hf
        · exact Or.inr (Or.inl hf)
        · exact Or.inr (Or.inr (Or.inl (by omega)))
        · exact absurd hf last.2
        · exact Or.inr (Or.inr (Or.inl (by omega)))
    · rw [readPacket_pending (by omega)]
      exact Or.inr (Or.inr (Or.inl (by simp only; omega)))
  · intro a ha
    have hmem : a ∈ s.accesses ∨ a = .content s.frameRead s.readable ∨
        a = .pktBuffer s.pktRead s.readable ∨ a = .pktBuffer 0 s.pktExpected.toNat := by
      by_cases complete : s.pktRead + s.readable ≥ s.pktExpected.toNat
      · by_cases last : s.lastPacket = true ∨ frame.firstPacket = PKT_OFFS_NONE
        · rw [readPacket_last complete last] at ha; simpa using ha
        · rw [readPacket_more complete last] at ha; simpa using ha
      · rw [readPacket_pending (by omega)] at ha
        have := by simpa using ha
        tauto
    rcases hmem with hold | rfl | rfl | rfl
    · exact h.inBounds a hold
    · exact hcontent
    · exact hbuffer
    · exact hwhole

theorem safe_readSize (hexp : s.pktExpected = 0) (h : Safe frame s) :
    Safe frame (s.readSize frame beyond) := by
  refine ⟨wf_readSize hexp h.wf, ?_, ?_⟩
  · by_cases short : FRAME_DATA_SIZE - s.frameRead < 2
    · rw [readSize_short short]; exact Or.inr (Or.inr (Or.inl (by simp)))
    · rw [readSize_room short]; exact Or.inl rfl
  · by_cases short : FRAME_DATA_SIZE - s.frameRead < 2
    · rw [readSize_short short]; exact h.inBounds
    · rw [readSize_room short]
      simp only [FRAME_DATA_SIZE_eq] at short
      have hoffset : s.sizeOffset frame ≤ 884 := by
        unfold sizeOffset
        rcases h.jump with hf | hf | hf | ⟨hf, -⟩
        · simp only [hf, Bool.false_eq_true, if_false]; omega
        · split <;> omega
        · omega
        · exact absurd hexp hf
      intro a ha
      simp only [List.mem_append, List.mem_cons, List.not_mem_nil, or_false] at ha
      rcases ha with hold | rfl | rfl
      · exact h.inBounds a hold
      · exact inBounds_content (by omega)
      · exact inBounds_content (by omega)

theorem safe_loop (h : Safe frame s) : Safe frame (s.loop frame beyond) := by
  refine (whileVariant_induct variant_decreases (Safe frame) h ?_).1
  intro s hs hrun
  have hlt : s.frameRead < 886 := running_iff.mp hrun
  by_cases hexp : s.pktExpected ≠ 0
  · simp only [step, if_pos hexp]; exact safe_readPacket hexp hlt hs
  · simp only [step, if_neg hexp]; exact safe_readSize (not_not.mp hexp) hs

/-! ## What is handed over -/

/-- The packets so far have the sizes a packet can have. -/
def Sized (s : Extract) : Prop :=
  ∀ p ∈ s.delivered, 1 ≤ p.content.length ∧ p.content.length ≤ 65535

theorem length_packet (pktBuffer : Nat → UInt8) (pktExpected : UInt16) :
    (packet pktBuffer pktExpected).content.length = pktExpected.toNat := by
  simp [packet]

/-- One iteration hands over at most one packet, of the size that was expected. -/
theorem delivered_step (s : Extract) :
    (s.step frame beyond).delivered = s.delivered ∨
      s.pktExpected ≠ 0 ∧ ∃ pktBuffer,
        (s.step frame beyond).delivered = s.delivered ++ [packet pktBuffer s.pktExpected] := by
  by_cases hexp : s.pktExpected ≠ 0
  · simp only [step, if_pos hexp]
    by_cases complete : s.pktRead + s.readable ≥ s.pktExpected.toNat
    · by_cases last : s.lastPacket = true ∨ frame.firstPacket = PKT_OFFS_NONE
      · rw [readPacket_last complete last]
        exact Or.inr ⟨hexp, _, rfl⟩
      · rw [readPacket_more complete last]
        exact Or.inr ⟨hexp, _, rfl⟩
    · rw [readPacket_pending (by omega)]
      exact Or.inl rfl
  · simp only [step, if_neg hexp]
    by_cases short : FRAME_DATA_SIZE - s.frameRead < 2
    · rw [readSize_short short]
      exact Or.inl rfl
    · rw [readSize_room short]
      exact Or.inl rfl

theorem sized_step (h : s.Sized) : (s.step frame beyond).Sized := by
  rcases @delivered_step frame beyond s with heq | ⟨hexp, pktBuffer, heq⟩
  · intro p hp
    exact h p (heq ▸ hp)
  · intro p hp
    rw [heq, List.mem_append, List.mem_singleton] at hp
    rcases hp with hold | rfl
    · exact h p hold
    · have hlt := s.pktExpected.toNat_lt
      have hpos := toNat_pos_of_ne hexp
      rw [length_packet]
      omega

theorem length_delivered_iterate (n : Nat) (s : Extract) :
    ((step frame beyond)^[n] s).delivered.length ≤ s.delivered.length + n := by
  induction n generalizing s with
  | zero => exact Nat.le_refl _
  | succ n ih =>
    have hstep : (s.step frame beyond).delivered.length ≤ s.delivered.length + 1 := by
      rcases @delivered_step frame beyond s with heq | ⟨-, pktBuffer, heq⟩
      · rw [heq]
        exact Nat.le_succ _
      · rw [heq, List.length_append, List.length_singleton]
    have hnext := ih (s.step frame beyond)
    rw [Function.iterate_succ_apply]
    omega

/-- The loop has stopped after `n` iterations, and ran until then. -/
def EndsAfter (frame : Frame) (beyond : Nat → UInt8) (s : Extract) (n : Nat) : Prop :=
  s.loop frame beyond = (step frame beyond)^[n] s ∧
    ((step frame beyond)^[n] s).running = false ∧
    ∀ k, k < n → ((step frame beyond)^[k] s).running = true

theorem endsAfter_of_variant (s : Extract) : ∃ n, n ≤ s.variant ∧ s.EndsAfter frame beyond n :=
  whileVariant_iterate variant_decreases s

theorem sized_loop (h : s.Sized) : (s.loop frame beyond).Sized :=
  (whileVariant_induct variant_decreases Sized h fun _ h _ => sized_step h).1

end Extract

/-! ## One frame -/

namespace Receiver

variable {frame : Frame} {beyond : Nat → UInt8} {r : Receiver}

/-- A partial packet is really partial; without one nothing is read. -/
def Wf (r : Receiver) : Prop :=
  r.pktRead < r.pktExpected.toNat ∨ r.pktExpected = 0 ∧ r.pktRead = 0

/-- The size field of the first packet of a consecutive frame is read only where there is
    one.  It is read when no partial packet is pending, or one that leaves two bytes. -/
def Plausible (r : Receiver) (frame : Frame) : Prop :=
  frame.counter = r.lastCounter + 1 → frame.firstPacket ≠ PKT_OFFS_NONE →
    r.pktExpected.toNat - r.pktRead ≤ FRAME_DATA_SIZE - 2 →
    frame.firstPacket.toNat ≤ FRAME_DATA_SIZE - 2

instance (r : Receiver) (frame : Frame) : Decidable (r.Plausible frame) := by
  unfold Plausible; infer_instance

/-- The variables of the extraction loop when it starts at `frameRead`. -/
def loopStart (r : Receiver) (frameRead : Nat) : Extract where
  pktBuffer := r.pktBuffer
  pktExpected := r.pktExpected
  pktRead := r.pktRead
  frameRead := frameRead
  firstPacket := true
  lastPacket := false
  delivered := []
  accesses := []

theorem wf_init (pktBuffer : Nat → UInt8) : (init pktBuffer).Wf := Or.inr ⟨rfl, rfl⟩

theorem extract_accesses (frameRead : Nat) :
    (r.extract frame beyond frameRead).accesses =
      ((r.loopStart frameRead).loop frame beyond).accesses := rfl

theorem wf_extract (hwf : r.Wf) (frameRead : Nat) :
    (r.extract frame beyond frameRead).receiver.Wf :=
  Extract.wf_loop (s := r.loopStart frameRead) hwf

theorem wf_onFrame (hwf : r.Wf) : (r.onFrame frame beyond).receiver.Wf := by
  simp only [onFrame]
  split
  · split
    · split
      · exact Or.inr ⟨rfl, rfl⟩
      · exact wf_extract (Or.inr ⟨rfl, rfl⟩) _
    · exact Or.inr ⟨rfl, rfl⟩
  · split
    · exact hwf
    · exact wf_extract hwf _

/-- A frame takes no more than this many iterations. -/
def iterationBound : Nat := 4 * FRAME_DATA_SIZE + 1

theorem variant_le (s : Extract) : s.variant ≤ iterationBound := by
  simp only [Extract.variant, iterationBound, FRAME_DATA_SIZE_eq]
  split <;> split <;> omega

theorem delivered_extract (r : Receiver) (frameRead : Nat) :
    (r.extract frame beyond frameRead).delivered.length ≤ iterationBound ∧
      ∀ p ∈ (r.extract frame beyond frameRead).delivered,
        1 ≤ p.content.length ∧ p.content.length ≤ 65535 := by
  obtain ⟨n, hn, hloop, -⟩ := @Extract.endsAfter_of_variant frame beyond (r.loopStart frameRead)
  have hlength := @Extract.length_delivered_iterate frame beyond n (r.loopStart frameRead)
  rw [← hloop] at hlength
  have hle := variant_le (r.loopStart frameRead)
  refine ⟨hlength.trans ?_, Extract.sized_loop (s := r.loopStart frameRead) ?_⟩
  · simp only [loopStart, List.length_nil]
    omega
  · simp [Extract.Sized, loopStart]

theorem delivered_onFrame (r : Receiver) :
    (r.onFrame frame beyond).delivered.length ≤ iterationBound ∧
      ∀ p ∈ (r.onFrame frame beyond).delivered,
        1 ≤ p.content.length ∧ p.content.length ≤ 65535 := by
  simp only [onFrame]
  split
  · split
    · split
      · simp
      · exact delivered_extract _ _
    · simp
  · split
    · simp
    · exact delivered_extract _ _

/-- On every frame the extraction loop ends, hands over finitely many packets of sizes from 1
    to 65535, and leaves a well-formed state. -/
theorem extraction_ends (hwf : r.Wf) (frame : Frame) (beyond : Nat → UInt8) :
    (∀ frameRead, ∃ n, n ≤ iterationBound ∧
      (r.loopStart frameRead).EndsAfter frame beyond n ∧
      (r.extract frame beyond frameRead).receiver.Wf) ∧
    (r.onFrame frame beyond).delivered.length ≤ iterationBound ∧
    (∀ p ∈ (r.onFrame frame beyond).delivered,
      1 ≤ p.content.length ∧ p.content.length ≤ 65535) ∧
    (r.onFrame frame beyond).receiver.Wf := by
  refine ⟨fun frameRead => ?_, (delivered_onFrame r).1, (delivered_onFrame r).2, wf_onFrame hwf⟩
  obtain ⟨n, hn, hends⟩ := @Extract.endsAfter_of_variant frame beyond (r.loopStart frameRead)
  exact ⟨n, hn.trans (variant_le _), hends, wf_extract hwf frameRead⟩

/-- 300 of 1000 bytes are there. -/
def partialPacket : Receiver := ⟨7, fun _ => 0, 1000, 300⟩

/-- The next frame, with offsets far outside. -/
def outsideFrame : Frame where
  counter := 8
  firstPacket := 60000
  lastPacket := 60000
  content := Vector.replicate FRAME_DATA_SIZE 255

theorem extraction_ends_partialPacket :
    (∃ n, n ≤ iterationBound ∧
      (partialPacket.loopStart 0).EndsAfter outsideFrame (fun _ => 255) n) ∧
    (partialPacket.onFrame outsideFrame fun _ => 255).delivered.length = 1 ∧
    (∀ p ∈ (partialPacket.onFrame outsideFrame fun _ => 255).delivered,
      1 ≤ p.content.length ∧ p.content.length ≤ 65535) ∧
    (partialPacket.onFrame outsideFrame fun _ => 255).receiver.pktExpected = 65535 ∧
    (partialPacket.onFrame outsideFrame fun _ => 255).receiver.Wf := by
  have hwf : partialPacket.Wf := Or.inl (by decide)
  obtain ⟨hends, -, hsizes, hleft⟩ := extraction_ends hwf outsideFrame fun _ => 255
  obtain ⟨n, hn, hloop, -⟩ := hends 0
  exact ⟨⟨n, hn, hloop⟩, by decide +kernel, hsizes, by decide +kernel, hleft⟩

theorem inBounds_extract (hwf : r.Wf) {frameRead : Nat}
    (hjump : Extract.JumpSafe frame (r.loopStart frameRead)) :
    ∀ a ∈ (r.extract frame beyond frameRead).accesses, a.InBounds :=
  (Extract.safe_loop (s := r.loopStart frameRead)
    ⟨hwf, hjump, by simp [loopStart]⟩).inBounds

/-- A plausible frame is handled inside the arrays. -/
theorem inBounds_onFrame (hwf : r.Wf) (h : r.Plausible frame) :
    ∀ a ∈ (r.onFrame frame beyond).accesses, a.InBounds := by
  simp only [onFrame]
  split
  next hcounter =>
    split
    next hfirst =>
      split
      next hfar => simp
      next hnear =>
        simp only [FRAME_DATA_SIZE_eq] at hnear
        exact inBounds_extract (Or.inr ⟨rfl, rfl⟩) (Or.inr (Or.inl (by omega)))
    next => simp
  next hcounter =>
    split
    next => simp
    next hskip =>
      simp only [not_and] at hskip
      refine inBounds_extract hwf ?_
      by_cases hnone : frame.firstPacket = PKT_OFFS_NONE
      · have hexp : r.pktExpected ≠ 0 := fun hzero => hskip hzero hnone
        exact Or.inr (Or.inr (Or.inr ⟨hexp, Or.inl hnone⟩))
      · by_cases hrest : r.pktExpected.toNat - r.pktRead ≤ FRAME_DATA_SIZE - 2
        · have := h (not_not.mp hcounter) hnone hrest
          exact Or.inr (Or.inl this)
        · simp only [FRAME_DATA_SIZE_eq] at hrest
          have hexp : r.pktExpected ≠ 0 := by
            intro hzero
            simp [hzero] at hrest
          exact Or.inr (Or.inr (Or.inr ⟨hexp, Or.inr (by simp only [loopStart]; omega)⟩))

/-- The read of a size field at an implausible offset leaves the array. -/
theorem not_inBounds_of_jump {s : Extract} (hrun : s.frameRead ≤ 884)
    (hexp : s.pktExpected = 0) (hfirst : s.firstPacket = true)
    (hfar : 884 < frame.firstPacket.toNat) :
    ∃ a ∈ (s.loop frame beyond).accesses, ¬ a.InBounds := by
  refine ⟨.content (frame.firstPacket.toNat + 1) 1, ?_, ?_⟩
  · have hlt : s.frameRead < FRAME_DATA_SIZE := by simp only [FRAME_DATA_SIZE_eq]; omega
    rw [Extract.loop_unfold (Extract.running_iff.mpr hlt)]
    apply Extract.mem_accesses_loop
    have hroom : ¬ FRAME_DATA_SIZE - s.frameRead < 2 := by
      simp only [FRAME_DATA_SIZE_eq]; omega
    simp only [Extract.step, hexp, ne_eq, not_true_eq_false, if_false,
      Extract.readSize_room hroom, Extract.sizeOffset, hfirst, if_true]
    simp
  · intro hin
    have := hin 0 (by omega)
    simp only [FRAME_DATA_SIZE_eq] at this
    omega

/-- An implausible one is not. -/
theorem not_inBounds_onFrame (hwf : r.Wf) (h : ¬ r.Plausible frame) :
    ∃ a ∈ (r.onFrame frame beyond).accesses, ¬ a.InBounds := by
  simp only [Plausible, not_forall, FRAME_DATA_SIZE_eq] at h
  obtain ⟨hcounter, hfirst, hrest, hfar⟩ := h
  simp only [onFrame, hcounter, ne_eq, not_true_eq_false, if_false, hfirst, and_false]
  rw [extract_accesses]
  generalize hr : ({ r with lastCounter := r.lastCounter + 1 } : Receiver) = r'
  have hexp' : r'.pktExpected = r.pktExpected := by rw [← hr]
  have hread' : r'.pktRead = r.pktRead := by rw [← hr]
  by_cases hexp : r.pktExpected = 0
  · -- the first iteration already reads the size field
    exact not_inBounds_of_jump (by simp [loopStart]) (by simp [loopStart, hexp', hexp]) rfl
      (by omega)
  · -- the first iteration finishes the partial packet, the second reads the size field
    have hlt : r.pktRead < r.pktExpected.toNat := by
      rcases hwf with hlt | ⟨hzero, -⟩
      · exact hlt
      · exact absurd hzero hexp
    have hreadable : (r'.loopStart 0).readable = r.pktExpected.toNat - r.pktRead := by
      simp only [Extract.readable, loopStart, hexp', hread', FRAME_DATA_SIZE_eq]
      omega
    rw [Extract.loop_unfold (Extract.running_iff.mpr (Nat.succ_pos _))]
    simp only [Extract.step]
    rw [if_pos (by simpa [loopStart, hexp'] using hexp)]
    rw [Extract.readPacket_more
      (by rw [hreadable]; simp only [loopStart, hexp', hread']; omega)
      (by simp [loopStart, hfirst])]
    refine not_inBounds_of_jump ?_ rfl rfl (by omega)
    change 0 + (r'.loopStart 0).readable ≤ 884
    omega

/-- The accesses of one frame are in bounds exactly when the frame is plausible. -/
theorem inBounds_onFrame_iff (hwf : r.Wf) :
    (∀ a ∈ (r.onFrame frame beyond).accesses, a.InBounds) ↔ r.Plausible frame := by
  constructor
  · intro hin
    by_contra hnot
    obtain ⟨a, ha, hout⟩ := @not_inBounds_onFrame _ beyond _ hwf hnot
    exact hout (hin a ha)
  · exact inBounds_onFrame hwf

/-! ## Runs -/

theorem run_snoc (frames : List (Frame × (Nat → UInt8))) (fb : Frame × (Nat → UInt8)) :
    r.run (frames ++ [fb]) =
      ⟨((r.run frames).receiver.onFrame fb.1 fb.2).receiver,
        (r.run frames).delivered ++ ((r.run frames).receiver.onFrame fb.1 fb.2).delivered,
        (r.run frames).accesses ++ ((r.run frames).receiver.onFrame fb.1 fb.2).accesses⟩ := by
  simp [run, List.foldl_append]

theorem wf_run (hwf : r.Wf) (frames : List (Frame × (Nat → UInt8))) :
    (r.run frames).receiver.Wf := by
  induction frames using List.reverseRecOn with
  | nil => exact hwf
  | append_singleton frames fb ih => rw [run_snoc]; exact wf_onFrame ih

theorem wf_of_reachable (h : r.Reachable) : r.Wf := by
  obtain ⟨pktBuffer, frames, rfl⟩ := h
  exact wf_run (wf_init pktBuffer) frames

/-- The accesses of a whole run are in bounds exactly when each of its frames is plausible
    in the state it meets. -/
theorem run_inBounds_iff (pktBuffer : Nat → UInt8) (frames : List (Frame × (Nat → UInt8))) :
    (∀ a ∈ ((init pktBuffer).run frames).accesses, a.InBounds) ↔
      ∀ i (h : i < frames.length),
        (((init pktBuffer).run (frames.take i)).receiver).Plausible frames[i].1 := by
  induction frames using List.reverseRecOn with
  | nil => simp [run]
  | append_singleton frames fb ih =>
    have hwf := wf_run (wf_init pktBuffer) frames
    rw [run_snoc]
    simp only [List.mem_append, or_imp, forall_and, ih, inBounds_onFrame_iff hwf]
    constructor
    · rintro ⟨hall, hlast⟩ i hi
      simp only [List.length_append, List.length_singleton] at hi
      rcases Nat.lt_succ_iff_lt_or_eq.mp hi with hlt | rfl
      · rw [List.getElem_append_left hlt, List.take_append_of_le_length (by omega)]
        exact hall i hlt
      · simpa using hlast
    · intro hall
      constructor
      · intro i hi
        have := hall i (by simp; omega)
        rwa [List.getElem_append_left hi, List.take_append_of_le_length (by omega)] at this
      · simpa using hall frames.length (by simp)

/-- A frame with a consecutive counter whose first packet offset lies far outside. -/
def implausibleFrame : Frame where
  counter := 1
  firstPacket := 60000
  lastPacket := 60000
  content := Vector.replicate FRAME_DATA_SIZE 0

/-- The source checks the offset in one branch only: not every access is in bounds. -/
theorem run_not_inBounds :
    ¬ ∀ (pktBuffer : Nat → UInt8) (frames : List (Frame × (Nat → UInt8))),
      ∀ a ∈ ((init pktBuffer).run frames).accesses, a.InBounds := by
  intro hall
  have hin := hall (fun _ => 0) [(implausibleFrame, fun _ => 0)]
  have hout : Access.content 60001 1 ∈
      ((init fun _ => 0).run [(implausibleFrame, fun _ => 0)]).accesses := by
    decide +kernel
  have := hin _ hout 0 (by omega)
  simp at this

end Receiver

end RyFi.Modem
