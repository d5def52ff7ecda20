import RyFi.Dsp.Stream
import Mathlib.Tactic.Common

/-! # Blocks handed from writer to reader

The invariant of a stream and of its two threads, whatever the order of their steps, and what
follows from it: no block is lost, repeated or changed on its way, and nobody sleeps through
a notification.
-/

namespace RyFi.Dsp

open BlockMachine

namespace Link

variable {T : Type} {l l' : Link T}

@[simp] theorem wake_idle : Writer.idle.wake = .idle := rfl

/-! ## What the functions can do -/

/-- The steps of `swap`. -/
inductive SwapMove (l : Link T) : Link T → Option Bool → Prop where
  | abandon (size : Nat) (at_swap : l.writer = .swap size) (stopped : l.writerStop = true) :
      SwapMove l { l with writer := .idle } (some false)
  | exchange (size : Nat) (at_swap : l.writer = .swap size) (running : l.writerStop = false)
      (free : l.canSwap = true) :
      SwapMove l { l with
        dataSize := size, writeBuf := l.readBuf, readBuf := l.writeBuf, canSwap := false
        writer := .ready, sent := l.sent ++ [block l.writeBuf size] } none
  | sleep (size : Nat) (at_swap : l.writer = .swap size) (running : l.writerStop = false)
      (taken : l.canSwap = false) : SwapMove l { l with writer := .asleep size } none
  | ready (at_ready : l.writer = .ready) :
      SwapMove l { l with dataReady := true, writer := .notify } none
  | notify (at_notify : l.writer = .notify) :
      SwapMove l { l with reader := l.reader.wake, writer := .idle } (some true)

theorem swap_cases {result : Option Bool} (h : l.swapStep = some (l', result)) :
    SwapMove l l' result := by
  rw [swapStep] at h
  split at h
  next size hwriter =>
    split at h
    next hgo =>
      split at h
      next hstop =>
        cases h
        exact .abandon size hwriter hstop
      next hstop =>
        cases h
        have hfree : l.canSwap = true := by simpa [hstop] using hgo
        exact .exchange size hwriter (by simpa using hstop) hfree
    next hwait =>
      cases h
      simp only [Bool.or_eq_true, not_or, Bool.not_eq_true] at hwait
      exact .sleep size hwriter hwait.2 hwait.1
  next hwriter =>
    cases h
    exact .ready hwriter
  next hwriter =>
    cases h
    exact .notify hwriter
  next => cases h
  next => cases h

/-- The steps of `read`. -/
inductive ReadMove (l : Link T) : Link T → Option (Option Nat) → Prop where
  | stopped (at_read : l.reader = .read) (stop : l.readerStop = true) :
      ReadMove l { l with reader := .idle } (some none)
  | take (at_read : l.reader = .read) (running : l.readerStop = false)
      (ready : l.dataReady = true) :
      ReadMove l { l with reader := .holding, taken := l.taken ++ [block l.readBuf l.dataSize] }
        (some (some l.dataSize))
  | sleep (at_read : l.reader = .read) (running : l.readerStop = false)
      (empty : l.dataReady = false) : ReadMove l { l with reader := .asleep } none

theorem read_cases {result : Option (Option Nat)} (h : l.readStep = some (l', result)) :
    ReadMove l l' result := by
  rw [readStep] at h
  split at h
  next hreader =>
    split at h
    next hgo =>
      split at h
      next hstop =>
        cases h
        exact .stopped hreader hstop
      next hstop =>
        cases h
        have hready : l.dataReady = true := by simpa [hstop] using hgo
        exact .take hreader (by simpa using hstop) hready
    next hwait =>
      cases h
      simp only [Bool.or_eq_true, not_or, Bool.not_eq_true] at hwait
      exact .sleep hreader hwait.2 hwait.1
  next => cases h

/-- The steps of `flush`. -/
inductive FlushMove (l : Link T) : Link T → Bool → Prop where
  | clear (at_flush : l.reader = .flush) :
      FlushMove l { l with dataReady := false, reader := .free } false
  | free (at_free : l.reader = .free) :
      FlushMove l { l with canSwap := true, reader := .notify } false
  | notify (at_notify : l.reader = .notify) :
      FlushMove l { l with writer := l.writer.wake, reader := .idle } true

theorem flush_cases {returns : Bool} (h : l.flushStep = some (l', returns)) :
    FlushMove l l' returns := by
  rw [flushStep] at h
  split at h
  next hreader =>
    cases h
    exact .clear hreader
  next hreader =>
    cases h
    exact .free hreader
  next hreader =>
    cases h
    exact .notify hreader
  next => cases h

theorem flush_returns (h : l.flushStep = some (l', true)) : l'.reader = .idle := by
  cases flush_cases h with
  | notify hreader => rfl

/-! ## Invariant -/

/-- The block that is handed over and not read yet. -/
def slot (l : Link T) : List (List T) :=
  if l.writer = .ready ∨ (l.dataReady = true ∧ l.reader ≠ .holding ∧ l.reader ≠ .flush) then
    [block l.readBuf l.dataSize]
  else []

structure Inv (l : Link T) : Prop where
  /-- One of four may go on: the next `swap`, the writer inside of it, the reader or the next
      `read`, the reader inside of `flush`. -/
  token : l.canSwap.toNat + l.dataReady.toNat + (if l.writer = .ready then 1 else 0) +
    (if l.reader = .free then 1 else 0) = 1
  held : l.reader = .holding ∨ l.reader = .flush → l.dataReady = true
  slot : l.sent = l.taken ++ l.slot
  writer_woken : ∀ size, l.writer = .asleep size →
    (l.canSwap = true → l.reader = .notify) ∧ (l.writerStop = true → l.wakesWriter = true)
  reader_woken : l.reader = .asleep →
    (l.dataReady = true → l.writer = .notify) ∧ (l.readerStop = true → l.wakesReader = true)

theorem inv_init (writeBuf readBuf : Nat → T) : (init writeBuf readBuf).Inv where
  token := rfl
  held := fun h => by rcases h with h | h <;> cases h
  slot := rfl
  writer_woken := fun size h => by cases h
  reader_woken := fun h => by cases h

namespace Inv

variable (h : l.Inv)

include h

/-- A writer that may exchange the buffers finds them with nobody. -/
theorem of_canSwap (hfree : l.canSwap = true) :
    l.dataReady = false ∧ l.writer ≠ .ready ∧ l.reader ≠ .free ∧ l.reader ≠ .holding ∧
      l.reader ≠ .flush := by
  have htoken := h.token
  rw [hfree, Bool.toNat_true] at htoken
  have hempty : l.dataReady = false := by
    cases hready : l.dataReady with
    | false => rfl
    | true =>
      rw [hready, Bool.toNat_true] at htoken
      omega
  refine ⟨hempty, fun hwriter => ?_, fun hreader => ?_, fun hreader => ?_, fun hreader => ?_⟩
  · rw [if_pos hwriter] at htoken
    omega
  · rw [if_pos hreader] at htoken
    omega
  · exact absurd (h.held (Or.inl hreader)) (by simp [hempty])
  · exact absurd (h.held (Or.inr hreader)) (by simp [hempty])

theorem of_dataReady (hready : l.dataReady = true) :
    l.canSwap = false ∧ l.writer ≠ .ready ∧ l.reader ≠ .free := by
  have htoken := h.token
  rw [hready, Bool.toNat_true] at htoken
  refine ⟨?_, fun hwriter => ?_, fun hreader => ?_⟩
  · cases hfree : l.canSwap with
    | false => rfl
    | true => exact absurd hready (by simp [(h.of_canSwap hfree).1])
  · rw [if_pos hwriter] at htoken
    omega
  · rw [if_pos hreader] at htoken
    omega

theorem of_ready (hwriter : l.writer = .ready) :
    l.canSwap = false ∧ l.dataReady = false ∧ l.reader ≠ .free := by
  refine ⟨?_, ?_, fun hreader => ?_⟩
  · cases hfree : l.canSwap with
    | false => rfl
    | true => exact absurd hwriter (h.of_canSwap hfree).2.1
  · cases hready : l.dataReady with
    | false => rfl
    | true => exact absurd hwriter (h.of_dataReady hready).2.1
  · have htoken := h.token
    rw [if_pos hwriter, if_pos hreader] at htoken
    omega

theorem of_free (hreader : l.reader = .free) :
    l.canSwap = false ∧ l.dataReady = false ∧ l.writer ≠ .ready := by
  refine ⟨?_, ?_, fun hwriter => absurd hreader (h.of_ready hwriter).2.2⟩
  · cases hfree : l.canSwap with
    | false => rfl
    | true => exact absurd hreader (h.of_canSwap hfree).2.2.1
  · cases hready : l.dataReady with
    | false => rfl
    | true => exact absurd hreader (h.of_dataReady hready).2.2

theorem of_held (hreader : l.reader = .holding ∨ l.reader = .flush) :
    l.dataReady = true ∧ l.canSwap = false ∧ l.writer ≠ .ready :=
  ⟨h.held hreader, (h.of_dataReady (h.held hreader)).1, (h.of_dataReady (h.held hreader)).2.1⟩

end Inv

/-! ### What the slot holds -/

theorem slot_ready (hwriter : l.writer = .ready) : l.slot = [block l.readBuf l.dataSize] :=
  if_pos (Or.inl hwriter)

theorem slot_empty (hwriter : l.writer ≠ .ready)
    (h : l.dataReady = false ∨ l.reader = .holding ∨ l.reader = .flush) : l.slot = [] := by
  refine if_neg (not_or.mpr ⟨hwriter, fun ⟨hready, hholding, hflush⟩ => ?_⟩)
  rcases h with h | h | h
  · simp [h] at hready
  · exact hholding h
  · exact hflush h

theorem slot_waiting (hready : l.dataReady = true) (hholding : l.reader ≠ .holding)
    (hflush : l.reader ≠ .flush) : l.slot = [block l.readBuf l.dataSize] :=
  if_pos (Or.inr ⟨hready, hholding, hflush⟩)

theorem sent_of_empty (hwriter : l.writer ≠ .ready)
    (h : l.dataReady = false ∨ l.reader = .holding ∨ l.reader = .flush) :
    l.sent = l.taken ++ l.slot ↔ l.sent = l.taken := by
  rw [slot_empty hwriter h, List.append_nil]

/-! ## Every step keeps it -/

/-- Steps that leave the exchange as it is, and only move a thread or set a stop flag. -/
theorem Inv.of_same (h : l.Inv) (canSwap : l'.canSwap = l.canSwap)
    (dataReady : l'.dataReady = l.dataReady) (readBuf : l'.readBuf = l.readBuf)
    (dataSize : l'.dataSize = l.dataSize) (sent : l'.sent = l.sent) (taken : l'.taken = l.taken)
    (at_ready : l'.writer = .ready ↔ l.writer = .ready)
    (at_free : l'.reader = .free ↔ l.reader = .free)
    (holding : l'.reader = .holding ↔ l.reader = .holding)
    (at_flush : l'.reader = .flush ↔ l.reader = .flush)
    (writer_woken : ∀ size, l'.writer = .asleep size →
      (l'.canSwap = true → l'.reader = .notify) ∧ (l'.writerStop = true → l'.wakesWriter = true))
    (reader_woken : l'.reader = .asleep →
      (l'.dataReady = true → l'.writer = .notify) ∧
        (l'.readerStop = true → l'.wakesReader = true)) : l'.Inv where
  token := by
    rw [canSwap, dataReady]
    simp only [at_ready, at_free]
    exact h.token
  held := by
    rw [holding, at_flush, dataReady]
    exact h.held
  slot := by
    have hslot : l'.slot = l.slot := by
      simp only [Link.slot, ne_eq, at_ready, dataReady, holding, at_flush, readBuf, dataSize]
    rw [sent, taken, hslot]
    exact h.slot
  writer_woken := writer_woken
  reader_woken := reader_woken

theorem wake_ready {w : Writer} : w.wake = .ready ↔ w = .ready := by
  cases w <;> simp [Writer.wake]

theorem wake_ne_asleep (w : Writer) (size : Nat) : w.wake ≠ .asleep size := by
  cases w <;> simp [Writer.wake]

theorem wake_notify {w : Writer} : w.wake = .notify ↔ w = .notify := by
  cases w <;> simp [Writer.wake]

theorem reader_wake_eq {r : Reader} (s : Reader) (hread : s ≠ .read) (hasleep : s ≠ .asleep) :
    r.wake = s ↔ r = s := by
  cases r with
  | asleep => exact iff_of_false (Ne.symm hread) (Ne.symm hasleep)
  | _ => exact Iff.rfl

theorem reader_wake_ne_asleep (r : Reader) : r.wake ≠ .asleep := by
  cases r <;> simp [Reader.wake]

/-! ### The writing side -/

theorem inv_swap {result : Option Bool} (h : l.Inv) (hstep : l.swapStep = some (l', result)) :
    l'.Inv := by
  cases swap_cases hstep with
  | abandon size hwriter hstop =>
    refine h.of_same rfl rfl rfl rfl rfl rfl (by simp [hwriter]) Iff.rfl Iff.rfl Iff.rfl
      (fun _ hasleep => by cases hasleep) fun hasleep => ?_
    refine ⟨fun hready => ?_, (h.reader_woken hasleep).2⟩
    exact absurd ((h.reader_woken hasleep).1 hready) (by simp [hwriter])
  | exchange size hwriter hrunning hfree =>
    obtain ⟨hempty, hne, hnfree, hnholding, hnflush⟩ := h.of_canSwap hfree
    constructor
    · simp [hempty, hnfree]
    · rintro (hreader | hreader)
      · exact absurd hreader hnholding
      · exact absurd hreader hnflush
    · rw [slot_ready rfl, h.slot, slot_empty hne (Or.inl hempty), List.append_nil]
    · exact fun _ hasleep => by cases hasleep
    · exact fun hasleep => ⟨fun hready => by simp [hempty] at hready, (h.reader_woken hasleep).2⟩
  | sleep size hwriter hrunning htaken =>
    refine h.of_same rfl rfl rfl rfl rfl rfl (by simp [hwriter]) Iff.rfl Iff.rfl Iff.rfl
      (fun _ _ => ⟨fun hfree => by simp [htaken] at hfree, fun hstop => by simp [hrunning] at hstop⟩)
      fun hasleep => ?_
    refine ⟨fun hready => ?_, (h.reader_woken hasleep).2⟩
    exact absurd ((h.reader_woken hasleep).1 hready) (by simp [hwriter])
  | ready hwriter =>
    obtain ⟨htaken, hempty, hnfree⟩ := h.of_ready hwriter
    have hnheld : ¬ (l.reader = .holding ∨ l.reader = .flush) := fun hheld => by
      simp [h.held hheld] at hempty
    rw [not_or] at hnheld
    constructor
    · simp [htaken, hnfree]
    · exact fun _ => rfl
    · have hslot : l.sent = l.taken ++ [block l.readBuf l.dataSize] := slot_ready hwriter ▸ h.slot
      refine hslot.trans (congrArg _ (Eq.symm (slot_waiting ?_ ?_ ?_)))
      · rfl
      · exact hnheld.1
      · exact hnheld.2
    · exact fun _ hasleep => by cases hasleep
    · exact fun hasleep => ⟨fun _ => rfl, (h.reader_woken hasleep).2⟩
  | notify hwriter =>
    refine h.of_same rfl rfl rfl rfl rfl rfl (by simp [hwriter])
      (reader_wake_eq _ (by simp) (by simp)) (reader_wake_eq _ (by simp) (by simp))
      (reader_wake_eq _ (by simp) (by simp)) (fun _ hasleep => by cases hasleep)
      fun hasleep => absurd hasleep (reader_wake_ne_asleep _)

theorem inv_writerStep (h : l.Inv) (hstep : WriterStep l l') : l'.Inv := by
  cases hstep with
  | fill hidle buf =>
    exact h.of_same rfl rfl rfl rfl rfl rfl Iff.rfl Iff.rfl Iff.rfl Iff.rfl h.writer_woken
      h.reader_woken
  | enter hidle size =>
    refine h.of_same rfl rfl rfl rfl rfl rfl (by simp [hidle]) Iff.rfl Iff.rfl Iff.rfl
      (fun _ hasleep => by cases hasleep) fun hasleep => ?_
    refine ⟨fun hready => ?_, (h.reader_woken hasleep).2⟩
    exact absurd ((h.reader_woken hasleep).1 hready) (by simp [hidle])
  | swap hinside => exact inv_swap h hinside
  | spurious =>
    exact h.of_same rfl rfl rfl rfl rfl rfl wake_ready Iff.rfl Iff.rfl Iff.rfl
      (fun _ hasleep => absurd hasleep (wake_ne_asleep _ _))
      fun hasleep => ⟨fun hready => wake_notify.mpr ((h.reader_woken hasleep).1 hready),
        (h.reader_woken hasleep).2⟩
  | stop =>
    exact h.of_same rfl rfl rfl rfl rfl rfl Iff.rfl Iff.rfl Iff.rfl Iff.rfl
      (fun size hasleep => ⟨(h.writer_woken size hasleep).1, fun _ => rfl⟩) h.reader_woken
  | notify hstopping =>
    exact h.of_same rfl rfl rfl rfl rfl rfl wake_ready Iff.rfl Iff.rfl Iff.rfl
      (fun _ hasleep => absurd hasleep (wake_ne_asleep _ _))
      fun hasleep => ⟨fun hready => wake_notify.mpr ((h.reader_woken hasleep).1 hready),
        (h.reader_woken hasleep).2⟩
  | clear hidle =>
    exact h.of_same rfl rfl rfl rfl rfl rfl Iff.rfl Iff.rfl Iff.rfl Iff.rfl
      (fun size hasleep => ⟨(h.writer_woken size hasleep).1, fun hstop => by cases hstop⟩)
      h.reader_woken

/-! ### The reading side -/

theorem inv_read {result : Option (Option Nat)} (h : l.Inv)
    (hstep : l.readStep = some (l', result)) : l'.Inv := by
  cases read_cases hstep with
  | stopped hreader hstop =>
    refine h.of_same rfl rfl rfl rfl rfl rfl Iff.rfl (by simp [hreader]) (by simp [hreader])
      (by simp [hreader]) (fun size hasleep => ?_) fun hasleep => by cases hasleep
    refine ⟨fun hfree => ?_, (h.writer_woken size hasleep).2⟩
    exact absurd ((h.writer_woken size hasleep).1 hfree) (by simp [hreader])
  | take hreader hrunning hready =>
    obtain ⟨htaken, hne, hnfree⟩ := h.of_dataReady hready
    constructor
    · simp [htaken, hready, hne]
    · exact fun _ => hready
    · refine (sent_of_empty ?_ ?_).mpr ?_
      · exact hne
      · exact Or.inr (Or.inl rfl)
      · have hslot := h.slot
        rwa [slot_waiting hready (by simp [hreader]) (by simp [hreader])] at hslot
    · exact fun size hasleep => ⟨fun hfree => by simp [htaken] at hfree,
        (h.writer_woken size hasleep).2⟩
    · exact fun hasleep => by cases hasleep
  | sleep hreader hrunning hempty =>
    refine h.of_same rfl rfl rfl rfl rfl rfl Iff.rfl (by simp [hreader]) (by simp [hreader])
      (by simp [hreader]) (fun size hasleep => ?_)
      fun _ => ⟨fun hready => by simp [hempty] at hready, fun hstop => by simp [hrunning] at hstop⟩
    refine ⟨fun hfree => ?_, (h.writer_woken size hasleep).2⟩
    exact absurd ((h.writer_woken size hasleep).1 hfree) (by simp [hreader])

theorem inv_flush {returns : Bool} (h : l.Inv) (hstep : l.flushStep = some (l', returns)) :
    l'.Inv := by
  cases flush_cases hstep with
  | clear hreader =>
    obtain ⟨hready, htaken, hne⟩ := h.of_held (Or.inr hreader)
    constructor
    · simp [htaken, hne]
    · rintro (hheld | hheld) <;> cases hheld
    · refine (sent_of_empty ?_ ?_).mpr ((sent_of_empty hne (Or.inr (Or.inr hreader))).mp h.slot)
      · exact hne
      · exact Or.inl rfl
    · exact fun size hasleep => ⟨fun hfree => by simp [htaken] at hfree,
        (h.writer_woken size hasleep).2⟩
    · exact fun hasleep => by cases hasleep
  | free hreader =>
    obtain ⟨htaken, hempty, hne⟩ := h.of_free hreader
    constructor
    · simp [hempty, hne]
    · rintro (hheld | hheld) <;> cases hheld
    · refine (sent_of_empty ?_ ?_).mpr ((sent_of_empty hne (Or.inl hempty)).mp h.slot)
      · exact hne
      · exact Or.inl hempty
    · exact fun size hasleep => ⟨fun _ => rfl, (h.writer_woken size hasleep).2⟩
    · exact fun hasleep => by cases hasleep
  | notify hreader =>
    exact h.of_same rfl rfl rfl rfl rfl rfl wake_ready (by simp [hreader]) (by simp [hreader])
      (by simp [hreader]) (fun _ hasleep => absurd hasleep (wake_ne_asleep _ _))
      fun hasleep => by cases hasleep

theorem inv_readerStep (h : l.Inv) (hstep : ReaderStep l l') : l'.Inv := by
  cases hstep with
  | enter hidle =>
    refine h.of_same rfl rfl rfl rfl rfl rfl Iff.rfl (by simp [hidle]) (by simp [hidle])
      (by simp [hidle]) (fun size hasleep => ?_) fun hasleep => by cases hasleep
    refine ⟨fun hfree => ?_, (h.writer_woken size hasleep).2⟩
    exact absurd ((h.writer_woken size hasleep).1 hfree) (by simp [hidle])
  | read hinside => exact inv_read h hinside
  | modify hholding buf =>
    obtain ⟨hready, htaken, hne⟩ := h.of_held (Or.inl hholding)
    constructor
    · exact h.token
    · exact h.held
    · refine (sent_of_empty ?_ ?_).mpr ((sent_of_empty hne (Or.inr (Or.inl hholding))).mp h.slot)
      · exact hne
      · exact Or.inr (Or.inl hholding)
    · exact h.writer_woken
    · exact h.reader_woken
  | release hholding =>
    obtain ⟨hready, htaken, hne⟩ := h.of_held (Or.inl hholding)
    constructor
    · simp [htaken, hready, hne]
    · exact fun _ => hready
    · refine (sent_of_empty ?_ ?_).mpr ((sent_of_empty hne (Or.inr (Or.inl hholding))).mp h.slot)
      · exact hne
      · exact Or.inr (Or.inr rfl)
    · exact fun size hasleep => ⟨fun hfree => by simp [htaken] at hfree,
        (h.writer_woken size hasleep).2⟩
    · exact fun hasleep => by cases hasleep
  | flush hinside => exact inv_flush h hinside
  | spurious =>
    exact h.of_same rfl rfl rfl rfl rfl rfl Iff.rfl (reader_wake_eq _ (by simp) (by simp))
      (reader_wake_eq _ (by simp) (by simp)) (reader_wake_eq _ (by simp) (by simp))
      (fun size hasleep => ⟨fun hfree => (reader_wake_eq _ (by simp) (by simp)).mpr
        ((h.writer_woken size hasleep).1 hfree), (h.writer_woken size hasleep).2⟩)
      fun hasleep => absurd hasleep (reader_wake_ne_asleep _)
  | stop =>
    exact h.of_same rfl rfl rfl rfl rfl rfl Iff.rfl Iff.rfl Iff.rfl Iff.rfl h.writer_woken
      fun hasleep => ⟨(h.reader_woken hasleep).1, fun _ => rfl⟩
  | notify hstopping =>
    exact h.of_same rfl rfl rfl rfl rfl rfl Iff.rfl (reader_wake_eq _ (by simp) (by simp))
      (reader_wake_eq _ (by simp) (by simp)) (reader_wake_eq _ (by simp) (by simp))
      (fun size hasleep => ⟨fun hfree => (reader_wake_eq _ (by simp) (by simp)).mpr
        ((h.writer_woken size hasleep).1 hfree), (h.writer_woken size hasleep).2⟩)
      fun hasleep => absurd hasleep (reader_wake_ne_asleep _)
  | clear hidle =>
    exact h.of_same rfl rfl rfl rfl rfl rfl Iff.rfl Iff.rfl Iff.rfl Iff.rfl h.writer_woken
      fun hasleep => ⟨(h.reader_woken hasleep).1, fun hstop => by cases hstop⟩

theorem inv_reachable (h : l.Reachable) : l.Inv := by
  obtain ⟨writeBuf, readBuf, hrun⟩ := h
  induction hrun with
  | refl => exact inv_init writeBuf readBuf
  | tail _ hstep ih =>
    rcases hstep with hstep | hstep
    · exact inv_writerStep ih hstep
    · exact inv_readerStep ih hstep

/-! ## What a side leaves alone -/

/-- What the writing side leaves to the reader. -/
structure WriterFrame (l l' : Link T) : Prop where
  taken : l'.taken = l.taken
  readerStop : l'.readerStop = l.readerStop
  wakesReader : l'.wakesReader = l.wakesReader
  /-- At most it wakes the reader. -/
  reader : l'.reader = l.reader ∨ l.reader = .asleep ∧ l'.reader = .read
  held : l.reader = .holding → l'.readBuf = l.readBuf ∧ l'.dataSize = l.dataSize

/-- What the reading side leaves to the writer. -/
structure ReaderFrame (l l' : Link T) : Prop where
  sent : l'.sent = l.sent
  writerStop : l'.writerStop = l.writerStop
  wakesWriter : l'.wakesWriter = l.wakesWriter
  /-- At most it wakes the writer. -/
  writer : l'.writer = l.writer ∨ ∃ size, l.writer = .asleep size ∧ l'.writer = .swap size
  writeBuf : l'.writeBuf = l.writeBuf

theorem writer_wake (w : Writer) : w.wake = w ∨ ∃ size, w = .asleep size ∧ w.wake = .swap size := by
  cases w with
  | asleep size => exact Or.inr ⟨size, rfl, rfl⟩
  | _ => exact Or.inl rfl

theorem reader_wake (r : Reader) : r.wake = r ∨ r = .asleep ∧ r.wake = .read := by
  cases r with
  | asleep => exact Or.inr ⟨rfl, rfl⟩
  | _ => exact Or.inl rfl

theorem writerStep_frame (h : l.Inv) (hstep : WriterStep l l') : WriterFrame l l' := by
  cases hstep with
  | swap hinside =>
    cases swap_cases hinside with
    | exchange size hwriter hrunning hfree =>
      -- a block that is held keeps the buffers from being exchanged
      refine ⟨rfl, rfl, rfl, Or.inl rfl, fun hholding => ?_⟩
      exact absurd hholding (h.of_canSwap hfree).2.2.2.1
    | notify hwriter => exact ⟨rfl, rfl, rfl, reader_wake _, fun _ => ⟨rfl, rfl⟩⟩
    | abandon | sleep | ready => exact ⟨rfl, rfl, rfl, Or.inl rfl, fun _ => ⟨rfl, rfl⟩⟩
  | fill | enter | spurious | stop | notify | clear =>
    exact ⟨rfl, rfl, rfl, Or.inl rfl, fun _ => ⟨rfl, rfl⟩⟩

theorem readerStep_frame (hstep : ReaderStep l l') : ReaderFrame l l' := by
  cases hstep with
  | read hinside =>
    cases read_cases hinside <;> exact ⟨rfl, rfl, rfl, Or.inl rfl, rfl⟩
  | flush hinside =>
    cases flush_cases hinside with
    | notify hreader => exact ⟨rfl, rfl, rfl, writer_wake _, rfl⟩
    | clear | free => exact ⟨rfl, rfl, rfl, Or.inl rfl, rfl⟩
  | enter | modify | release | spurious | stop | notify | clear =>
    exact ⟨rfl, rfl, rfl, Or.inl rfl, rfl⟩

/-- While a block is held the writing side changes neither it nor that it is held. -/
theorem holding_writerSteps (h : l.Inv) (hholding : l.reader = .holding)
    (hrun : Relation.ReflTransGen WriterStep l l') :
    l'.Inv ∧ l'.reader = .holding ∧ l'.readBuf = l.readBuf ∧ l'.dataSize = l.dataSize := by
  induction hrun with
  | refl => exact ⟨h, hholding, rfl, rfl⟩
  | tail _ hstep ih =>
    obtain ⟨hinv, hheld, hbuf, hsize⟩ := ih
    have hframe := writerStep_frame hinv hstep
    have hreader := hframe.reader.resolve_right fun hasleep => by simp [hheld] at hasleep
    refine ⟨inv_writerStep hinv hstep, hreader.trans hheld, ?_, ?_⟩
    · exact (hframe.held hheld).1.trans hbuf
    · exact (hframe.held hheld).2.trans hsize

theorem filling_readerSteps (hidle : l.writer = .idle)
    (hrun : Relation.ReflTransGen ReaderStep l l') :
    l'.writer = .idle ∧ l'.writeBuf = l.writeBuf := by
  induction hrun with
  | refl => exact ⟨hidle, rfl⟩
  | tail _ hstep ih =>
    obtain ⟨hwriter, hbuf⟩ := ih
    have hframe := readerStep_frame hstep
    have hsame := hframe.writer.resolve_right fun ⟨size, hasleep, _⟩ => by simp [hwriter] at hasleep
    exact ⟨hsame.trans hwriter, hframe.writeBuf.trans hbuf⟩

/-! ## Delivery -/

/-- A read returns the block that was handed over next, as it was handed over. -/
theorem read_returns (h : l.Inv) {size : Nat} (hread : l.readStep = some (l', some (some size))) :
    l.sent = l.taken ++ [block l'.readBuf size] ∧ l'.taken = l.sent ∧ l'.reader = .holding := by
  cases read_cases hread with
  | take hreader hrunning hready =>
    have hsent := h.slot
    rw [slot_waiting hready (by simp [hreader]) (by simp [hreader])] at hsent
    exact ⟨hsent, hsent.symm, rfl⟩

theorem sent_of_inv (h : l.Inv) : l.sent = l.taken ∨ ∃ b, l.sent = l.taken ++ [b] := by
  rw [h.slot]
  unfold slot
  split
  · exact Or.inr ⟨_, rfl⟩
  · exact Or.inl (List.append_nil _)

/-- A sleeping reader has left no writer asleep. -/
theorem not_both_asleep (h : l.Inv) (hreader : l.reader = .asleep) (size : Nat) :
    l.writer ≠ .asleep size := by
  intro hwriter
  have htoken := h.token
  rw [if_neg (by simp [hwriter]), if_neg (by simp [hreader])] at htoken
  cases hfree : l.canSwap with
  | true => exact absurd ((h.writer_woken size hwriter).1 hfree) (by simp [hreader])
  | false =>
    cases hready : l.dataReady with
    | true => exact absurd ((h.reader_woken hreader).1 hready) (by simp [hwriter])
    | false => simp [hfree, hready] at htoken

/-- A stream whose reader sleeps while its writer is elsewhere is empty. -/
theorem empty_of_asleep (h : l.Inv) (hreader : l.reader = .asleep) (hwriter : l.writer = .idle) :
    l.sent = l.taken := by
  have hempty : l.dataReady = false := by
    cases hready : l.dataReady with
    | true => exact absurd ((h.reader_woken hreader).1 hready) (by simp [hwriter])
    | false => rfl
  exact (sent_of_empty (by simp [hwriter]) (Or.inl hempty)).mp h.slot

/-- A writer that waits while the reader holds the block before. -/
theorem exists_waiting : ∃ l : Link Nat, l.Reachable ∧ l.reader = .holding ∧
    l.writer = .asleep 1 ∧ l.sent = [[0, 1]] := by
  refine ⟨?last, ⟨id, fun _ => 0, ?run⟩, ?ends⟩
  case run =>
    refine .head (Or.inl (.enter rfl 2)) ?_
    -- `swap`: the exchange, the flag and the notification
    refine .head (Or.inl (.swap rfl)) (.head (Or.inl (.swap rfl)) (.head (Or.inl (.swap rfl)) ?_))
    refine .head (Or.inr (.enter rfl)) (.head (Or.inr (.read rfl)) ?_)
    refine .head (Or.inl (.enter rfl 1)) (.head (Or.inl (.swap rfl)) ?_)
    exact .refl
  case ends => exact ⟨rfl, rfl, rfl⟩

/-- Whatever the order of steps, and however often the two threads are stopped and started:
    the blocks read are the blocks handed over, in order, but for the last one; a read returns
    the next one as it was handed over; and nobody else touches the block that is held or the
    buffer that is filled. -/
theorem hands_over (h : l.Reachable) :
    (l.sent = l.taken ∨ ∃ b, l.sent = l.taken ++ [b]) ∧
    (∀ l' size, l.readStep = some (l', some (some size)) →
      l.sent = l.taken ++ [block l'.readBuf size] ∧ l'.taken = l.sent ∧ l'.reader = .holding) ∧
    (l.reader = .holding → ∀ l', Relation.ReflTransGen WriterStep l l' →
      l'.reader = .holding ∧ l'.readBuf = l.readBuf ∧ l'.dataSize = l.dataSize) ∧
    (l.writer = .idle → ∀ l', Relation.ReflTransGen ReaderStep l l' →
      l'.writer = .idle ∧ l'.writeBuf = l.writeBuf) := by
  have hinv := inv_reachable h
  exact ⟨sent_of_inv hinv, fun l' size hread => read_returns hinv hread,
    fun hholding l' hrun => (holding_writerSteps hinv hholding hrun).2,
    fun hidle l' hrun => filling_readerSteps hidle hrun⟩

theorem hands_over_waiting : ∃ l : Link Nat, l.sent = [[0, 1]] ∧
    (l.sent = l.taken ∨ ∃ b, l.sent = l.taken ++ [b]) ∧
    (∀ l', Relation.ReflTransGen WriterStep l l' → l'.readBuf = l.readBuf) := by
  obtain ⟨l, hreach, hholding, -, hsent⟩ := exists_waiting
  obtain ⟨horder, -, hheld, -⟩ := hands_over hreach
  exact ⟨l, hsent, horder, fun l' hrun => (hheld hholding l' hrun).2.1⟩

/-- No wake-up is lost: a thread sleeps only as long as it has to or until the notification
    that is on its way, and never do both sleep. -/
theorem wakes_up (h : l.Reachable) :
    (∀ size, l.writer = .asleep size →
      (l.canSwap = true → l.reader = .notify) ∧ (l.writerStop = true → l.wakesWriter = true)) ∧
    (l.reader = .asleep →
      (l.dataReady = true → l.writer = .notify) ∧ (l.readerStop = true → l.wakesReader = true)) ∧
    ¬ ((∃ size, l.writer = .asleep size) ∧ l.reader = .asleep) := by
  have hinv := inv_reachable h
  exact ⟨hinv.writer_woken, hinv.reader_woken,
    fun ⟨⟨size, hwriter⟩, hreader⟩ => not_both_asleep hinv hreader size hwriter⟩

theorem wakes_up_waiting : ∃ l : Link Nat, l.writer = .asleep 1 ∧
    (l.canSwap = true → l.reader = .notify) ∧ l.reader ≠ .asleep := by
  obtain ⟨l, hreach, -, hasleep, -⟩ := exists_waiting
  obtain ⟨hwriter, -, hboth⟩ := wakes_up hreach
  exact ⟨l, hasleep, (hwriter 1 hasleep).1, fun hreader => hboth ⟨⟨1, hasleep⟩, hreader⟩⟩

end Link

end RyFi.Dsp
