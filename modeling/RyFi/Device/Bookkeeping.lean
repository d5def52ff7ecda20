import RyFi.Device.Driver
import Mathlib.Data.List.Count
import Mathlib.Data.List.Induction

/-! # Reference counts of the device contexts

`Bookkept` is what the driver promises after every operation.  `acquireContext` alone breaks
it: its caller owes the half that holds the reference (`acquire_push`), and the transmitter's
constructor that throws never pays (`acquire_not_bookkept`).
-/

namespace RyFi.Device.RFNMDriver

/-- The halves that hold a context. -/
def holders (s : RFNMDriver) (ctx : Nat) : Nat := s.halves.countP fun half => half.ctx == some ctx

/-- The map, the reference counts, the devices and the halves agree. -/
structure Bookkept (s : RFNMDriver) : Prop where
  counted : ∀ ident ctx, s.contexts ident = some ctx → ∃ c, s.heap ctx = some c ∧
    c.ident = ident ∧ c.refCount = s.holders ctx ∧ ∃ dev, c.dev = some dev ∧ s.devices dev = true
  /-- In the map exactly while held. -/
  held : ∀ ctx, 0 < s.holders ctx ↔ ∃ ident, s.contexts ident = some ctx
  /-- No other device is open. -/
  opened : ∀ dev, s.devices dev = true → ∃ ident ctx c, s.contexts ident = some ctx ∧
    s.heap ctx = some c ∧ c.dev = some dev

/-- Every context that is allocated is held. -/
def NoLeak (s : RFNMDriver) : Prop := ∀ ctx c, s.heap ctx = some c → 0 < s.holders ctx

/-- `acquireContext` returns. -/
def Acquires (s : RFNMDriver) (ident : String) (a : Answers) : Prop :=
  s.contexts ident ≠ none ∨ ∃ t, parseIdent ident = some t ∧ a.device t.1 t.2 = none ∧
    a.get = none ∧ a.rx_disable_stale_channels = none ∧ a.set_stream_format = none

/-- `new rfnm::device` throws. -/
def DeviceThrows (s : RFNMDriver) (ident : String) (a : Answers) : Prop :=
  s.contexts ident = none ∧ ∃ t err, parseIdent ident = some t ∧ a.device t.1 t.2 = some err

/-- The transmitter's constructor throws. -/
def NoChannel (a : Answers) : Prop :=
  a.get_tx_channel_count = 0 ∨ a.is_tx_channel_available = false

/-! ## One address -/

/-- A context that is filed and held. -/
structure Live (s : RFNMDriver) (ident : String) (ctx : Nat) : Prop where
  heap : ∃ c, s.heap ctx = some c ∧ c.ident = ident ∧ c.refCount = s.holders ctx ∧ c.dev = some ctx
  pos : 0 < s.holders ctx
  device : s.devices ctx = true
  fresh : ctx < s.next
  filed : ∀ ident', s.contexts ident' = some ctx ↔ ident' = ident

/-- No context, or one that was left behind without a device. -/
structure Dead (s : RFNMDriver) (ctx : Nat) : Prop where
  heap : ∀ c, s.heap ctx = some c → c.dev = none ∧ ctx < s.next
  zero : s.holders ctx = 0
  device : s.devices ctx = false
  filed : ∀ ident, s.contexts ident ≠ some ctx

def Sound (s : RFNMDriver) : Prop := ∀ ctx, (∃ ident, Live s ident ctx) ∨ Dead s ctx

/-- An operation that does not concern this address. -/
structure SameAt (s s' : RFNMDriver) (ctx : Nat) : Prop where
  heap : s'.heap ctx = s.heap ctx
  holders : s'.holders ctx = s.holders ctx
  device : s'.devices ctx = s.devices ctx
  next : s.next ≤ s'.next
  filed : ∀ ident, s'.contexts ident = some ctx ↔ s.contexts ident = some ctx

section

variable {s s' : RFNMDriver} {ident : String} {a : Answers} {ctx : Nat}

theorem Live.same (h : Live s ident ctx) (hsame : SameAt s s' ctx) : Live s' ident ctx where
  heap := by rw [hsame.heap, hsame.holders]; exact h.heap
  pos := hsame.holders ▸ h.pos
  device := hsame.device.trans h.device
  fresh := Nat.lt_of_lt_of_le h.fresh hsame.next
  filed := fun ident' => (hsame.filed ident').trans (h.filed ident')

theorem Dead.same (h : Dead s ctx) (hsame : SameAt s s' ctx) : Dead s' ctx where
  heap := fun c hc => by
    rw [hsame.heap] at hc
    exact ⟨(h.heap c hc).1, Nat.lt_of_lt_of_le (h.heap c hc).2 hsame.next⟩
  zero := hsame.holders.trans h.zero
  device := hsame.device.trans h.device
  filed := fun ident hfiled => h.filed ident ((hsame.filed ident).mp hfiled)

/-- An operation that concerns one address. -/
theorem Sound.replace (h : Sound s) (hsame : ∀ ctx', ctx' ≠ ctx → SameAt s s' ctx')
    (hat : (∃ ident, Live s' ident ctx) ∨ Dead s' ctx) : Sound s' := by
  intro ctx'
  by_cases hctx : ctx' = ctx
  · rw [hctx]
    exact hat
  · rcases h ctx' with ⟨ident, hlive⟩ | hdead
    · exact Or.inl ⟨ident, hlive.same (hsame ctx' hctx)⟩
    · exact Or.inr (hdead.same (hsame ctx' hctx))

theorem NoLeak.replace (h : NoLeak s) (hsame : ∀ ctx', ctx' ≠ ctx → SameAt s s' ctx')
    (hat : (∃ ident, Live s' ident ctx) ∨ s'.heap ctx = none) : NoLeak s' := by
  intro ctx' c hheap
  by_cases hctx : ctx' = ctx
  · subst hctx
    rcases hat with ⟨ident, hlive⟩ | hnone
    · exact hlive.pos
    · rw [hnone] at hheap
      cases hheap
  · rw [(hsame ctx' hctx).heap] at hheap
    rw [(hsame ctx' hctx).holders]
    exact h ctx' c hheap

theorem Sound.live (h : Sound s) (hmap : s.contexts ident = some ctx) : Live s ident ctx := by
  rcases h ctx with ⟨ident', hlive⟩ | hdead
  · rw [(hlive.filed ident).mp hmap]
    exact hlive
  · exact absurd hmap (hdead.filed ident)

theorem Sound.next_dead (h : Sound s) : Dead s s.next ∧ s.heap s.next = none := by
  rcases h s.next with ⟨ident, hlive⟩ | hdead
  · exact absurd hlive.fresh (Nat.lt_irrefl _)
  · refine ⟨hdead, ?_⟩
    cases hheap : s.heap s.next with
    | none => rfl
    | some c => exact absurd (hdead.heap c hheap).2 (Nat.lt_irrefl _)

theorem Sound.bookkept (h : Sound s) : Bookkept s where
  counted := fun ident ctx hmap => by
    have hlive := h.live hmap
    obtain ⟨c, hheap, hident, hcount, hdev⟩ := hlive.heap
    exact ⟨c, hheap, hident, hcount, ctx, hdev, hlive.device⟩
  held := fun ctx => by
    rcases h ctx with ⟨ident, hlive⟩ | hdead
    · exact iff_of_true hlive.pos ⟨ident, (hlive.filed ident).mpr rfl⟩
    · refine iff_of_false (by rw [hdead.zero]; exact Nat.lt_irrefl 0) ?_
      rintro ⟨ident, hmap⟩
      exact hdead.filed ident hmap
  opened := fun dev hopen => by
    rcases h dev with ⟨ident, hlive⟩ | hdead
    · obtain ⟨c, hheap, -, -, hdev⟩ := hlive.heap
      exact ⟨ident, dev, c, (hlive.filed ident).mpr rfl, hheap, hdev⟩
    · rw [hdead.device] at hopen
      cases hopen

/-! ## Halves -/

/-- One more half. -/
def push (s : RFNMDriver) (half : Half) : RFNMDriver := { s with halves := s.halves ++ [half] }

theorem holders_push (s : RFNMDriver) (transmits : Bool) (ctx ctx' : Nat) :
    (s.push ⟨transmits, some ctx⟩).holders ctx' =
      s.holders ctx' + (if ctx = ctx' then 1 else 0) := by
  rw [holders, holders, push, List.countP_append, List.countP_singleton]
  simp

/-! ## Acquiring -/

/-- One more reference to a context that is open. -/
def retain (s : RFNMDriver) (ctx : Nat) : RFNMDriver :=
  { s with
    heap := Function.update s.heap ctx
      ((s.heap ctx).map fun c => { c with refCount := c.refCount + 1 }) }

/-- A new context, filed under its identifier. -/
def insert (s : RFNMDriver) (ident : String) : RFNMDriver :=
  let t := (s.newContext ident).openDevice ident s.next
  { t with contexts := Function.update s.contexts ident (some s.next) }

/-- A new context whose device was closed again leaves nothing behind. -/
theorem delete_new (h : Sound s) (ident : String) :
    ((s.newContext ident).openDevice ident s.next).deleteContext s.next =
      { s with next := s.next + 1 } := by
  have hheap : Function.update (Function.update (Function.update s.heap s.next
      (some ⟨none, ident, 1⟩)) s.next (some ⟨some s.next, ident, 1⟩)) s.next none = s.heap := by
    rw [Function.update_idem, Function.update_idem, ← h.next_dead.2, Function.update_eq_self]
  have hdevices : (fun d => if some s.next = some d then false
      else Function.update s.devices s.next true d) = s.devices := by
    funext d
    by_cases hd : s.next = d
    · rw [if_pos (congrArg some hd), ← hd, h.next_dead.1.device]
    · rw [if_neg (fun heq => hd (Option.some.inj heq)), Function.update_of_ne (Ne.symm hd)]
  simp only [newContext, openDevice, deleteContext, Function.update_self, Option.bind_some, hheap]
  congr

/-- What `acquireContext` does, with what decides it. -/
theorem acquire_cases (h : Sound s) (ident : String) (a : Answers) :
    (∃ ctx, s.contexts ident = some ctx ∧ s.acquireContext ident a = (s.retain ctx, .ok ctx)) ∨
    (s.contexts ident = none ∧ Acquires s ident a ∧
      s.acquireContext ident a = (s.insert ident, .ok s.next)) ∨
    (DeviceThrows s ident a ∧ ¬ Acquires s ident a ∧
      ∃ err, s.acquireContext ident a = (s.newContext ident, .error err)) ∨
    (¬ DeviceThrows s ident a ∧ ¬ Acquires s ident a ∧ ∃ n err,
      s.acquireContext ident a = ({ s with next := s.next + n }, .error err)) := by
  cases hmap : s.contexts ident with
  | some ctx => exact Or.inl ⟨ctx, rfl, by simp only [acquireContext, hmap, retain]⟩
  | none =>
    have habort := delete_new h ident
    refine Or.inr ?_
    cases hparse : parseIdent ident with
    | none =>
      have hnot : ¬ Acquires s ident a := by simp [Acquires, hmap, hparse]
      refine Or.inr (Or.inr ⟨by simp [DeviceThrows, hparse], hnot, 0,
        "Invalid RFNM device identifier: '" ++ ident ++ "'", ?_⟩)
      simp only [acquireContext, hmap, hparse, Nat.add_zero]
    | some t =>
      cases hdevice : a.device t.1 t.2 with
      | some err =>
        have hnot : ¬ Acquires s ident a := by simp [Acquires, hmap, hparse, hdevice]
        refine Or.inr (Or.inl ⟨⟨hmap, t, err, hparse, hdevice⟩, hnot, err, ?_⟩)
        simp only [acquireContext, hmap, hparse, hdevice]
      | none =>
        have hopen : ¬ DeviceThrows s ident a := by simp [DeviceThrows, hmap, hparse, hdevice]
        have hiff : Acquires s ident a ↔ a.get = none ∧ a.rx_disable_stale_channels = none ∧
            a.set_stream_format = none := by
          simp [Acquires, hmap, hparse, hdevice]
        rw [hiff]
        -- each of the three exits closes the device it opened
        cases hget : a.get with
        | some err =>
          refine Or.inr (Or.inr ⟨hopen, by simp, 1,
            "Failed to read the RFNM device status: " ++ err, ?_⟩)
          simp only [acquireContext, hmap, hparse, hdevice, hget, habort]
        | none =>
          cases hstale : a.rx_disable_stale_channels with
          | some err =>
            refine Or.inr (Or.inr ⟨hopen, by simp, 1,
              "Failed to disable stale RFNM channels: " ++ err, ?_⟩)
            simp only [acquireContext, hmap, hparse, hdevice, hget, hstale, habort]
          | none =>
            cases hformat : a.set_stream_format with
            | some err =>
              refine Or.inr (Or.inr ⟨hopen, by simp, 1,
                "Failed to set the RFNM stream format: " ++ err, ?_⟩)
              simp only [acquireContext, hmap, hparse, hdevice, hget, hstale, hformat, habort]
            | none =>
              refine Or.inl ⟨rfl, ⟨rfl, rfl, rfl⟩, ?_⟩
              simp only [acquireContext, hmap, hparse, hdevice, hget, hstale, hformat]
              rfl

/-! ## Opening -/

theorem Sound.retain_push (h : Sound s) (hmap : s.contexts ident = some ctx) (transmits : Bool) :
    (∀ ctx', ctx' ≠ ctx → SameAt s ((s.retain ctx).push ⟨transmits, some ctx⟩) ctx') ∧
      Live ((s.retain ctx).push ⟨transmits, some ctx⟩) ident ctx := by
  have hholders : ∀ ctx', ((s.retain ctx).push ⟨transmits, some ctx⟩).holders ctx' =
      s.holders ctx' + (if ctx = ctx' then 1 else 0) := holders_push (s.retain ctx) transmits ctx
  have hlive := h.live hmap
  refine ⟨fun ctx' hne => ?_, ?_⟩
  · exact ⟨Function.update_of_ne hne _ _, by rw [hholders, if_neg (Ne.symm hne)]; rfl, rfl,
      Nat.le_refl _, fun _ => Iff.rfl⟩
  · obtain ⟨c, hheap, hident, hcount, hdev⟩ := hlive.heap
    refine ⟨⟨{ c with refCount := c.refCount + 1 }, ?_, hident, ?_, hdev⟩, ?_, hlive.device,
      hlive.fresh, hlive.filed⟩
    · simp only [push, retain, Function.update_self, hheap, Option.map_some]
    · rw [hholders, if_pos rfl, hcount]
      rfl
    · rw [hholders, if_pos rfl]
      exact Nat.succ_pos _

theorem Sound.insert_push (h : Sound s) (hmap : s.contexts ident = none) (transmits : Bool) :
    (∀ ctx', ctx' ≠ s.next →
        SameAt s ((s.insert ident).push ⟨transmits, some s.next⟩) ctx') ∧
      Live ((s.insert ident).push ⟨transmits, some s.next⟩) ident s.next := by
  have hholders : ∀ ctx', ((s.insert ident).push ⟨transmits, some s.next⟩).holders ctx' =
      s.holders ctx' + (if s.next = ctx' then 1 else 0) :=
    holders_push (s.insert ident) transmits s.next
  have hheap : ((s.insert ident).push ⟨transmits, some s.next⟩).heap =
      Function.update s.heap s.next (some ⟨some s.next, ident, 1⟩) :=
    Function.update_idem _ _ _
  have hdead := h.next_dead.1
  refine ⟨fun ctx' hne => ?_, ?_⟩
  · refine ⟨by rw [hheap, Function.update_of_ne hne], by rw [hholders, if_neg (Ne.symm hne)]; rfl,
      Function.update_of_ne hne _ _, Nat.le_succ _, fun ident' => ?_⟩
    by_cases hident : ident' = ident
    · subst hident
      refine iff_of_false ?_ (by rw [hmap]; exact Option.some_ne_none _ ∘ Eq.symm)
      intro hsome
      exact hne
        (Option.some.inj ((Function.update_self (f := s.contexts) ..).symm.trans hsome)).symm
    · exact iff_of_eq (congrArg (· = some ctx') (Function.update_of_ne hident _ _))
  · refine ⟨⟨⟨some s.next, ident, 1⟩, ?_, rfl, ?_, rfl⟩, ?_, Function.update_self ..,
      Nat.lt_succ_self _, fun ident' => ?_⟩
    · rw [hheap, Function.update_self]
    · rw [hholders, if_pos rfl, hdead.zero]
      rfl
    · rw [hholders, if_pos rfl]
      exact Nat.succ_pos _
    · by_cases hident : ident' = ident
      · exact iff_of_true (by rw [hident]; exact Function.update_self ..) hident
      · refine iff_of_false (fun hsome => ?_) hident
        exact hdead.filed ident' ((Function.update_of_ne hident _ _).symm.trans hsome)

theorem Sound.retain_not_bookkept (h : Sound s) (hmap : s.contexts ident = some ctx) :
    ¬ Bookkept (s.retain ctx) := by
  intro hkept
  obtain ⟨c, hheap, -, hcount, -⟩ := (h.live hmap).heap
  obtain ⟨c', hheap', -, hcount', -⟩ := hkept.counted ident ctx hmap
  simp only [retain, Function.update_self, hheap, Option.map_some, Option.some.injEq] at hheap'
  have hsame : (s.retain ctx).holders ctx = s.holders ctx := rfl
  rw [← hheap', hsame] at hcount'
  simp only at hcount'
  omega

theorem Sound.insert_not_bookkept (h : Sound s) (ident : String) :
    ¬ Bookkept (s.insert ident) := by
  intro hkept
  have hheld := (hkept.held s.next).mpr ⟨ident, Function.update_self ..⟩
  have hnone : (s.insert ident).holders s.next = 0 := h.next_dead.1.zero
  omega

/-- `new rfnm::device` threw: the context stays allocated, and nothing refers to it. -/
theorem Sound.newContext (h : Sound s) (ident : String) :
    Sound (s.newContext ident) ∧ ¬ NoLeak (s.newContext ident) := by
  have hdead := h.next_dead.1
  have hnew : (s.newContext ident).heap s.next = some ⟨none, ident, 1⟩ := Function.update_self ..
  constructor
  · refine @Sound.replace _ _ s.next h (fun ctx' hne => ?_) (Or.inr ?_)
    · exact ⟨Function.update_of_ne hne _ _, rfl, rfl, Nat.le_succ _, fun _ => Iff.rfl⟩
    · refine ⟨fun c hc => ?_, hdead.zero, hdead.device, hdead.filed⟩
      rw [hnew] at hc
      cases hc
      exact ⟨rfl, Nat.lt_succ_self _⟩
  · intro hleak
    have hheld := hleak s.next _ hnew
    have hnone : (s.newContext ident).holders s.next = 0 := hdead.zero
    omega

theorem Sound.skip (h : Sound s) (n : Nat) : Sound { s with next := s.next + n } :=
  @Sound.replace _ _ s.next h (fun _ _ => ⟨rfl, rfl, rfl, Nat.le_add_right _ _, fun _ => Iff.rfl⟩)
    (Or.inr (h.next_dead.1.same ⟨rfl, rfl, rfl, Nat.le_add_right _ _, fun _ => Iff.rfl⟩))

/-! ## Closing -/

theorem countP_close {halves : List Half} {half : Half} {i : Nat} (hi : halves[i]? = some half)
    (ctx' : Nat) :
    (halves.set i { half with ctx := none }).countP (fun half => half.ctx == some ctx') =
      halves.countP (fun half => half.ctx == some ctx') -
        (if half.ctx = some ctx' then 1 else 0) := by
  obtain ⟨hlt, hget⟩ := List.getElem?_eq_some_iff.mp hi
  rw [List.countP_set hlt, hget]
  simp

theorem Live.of_half (h : Sound s) {half : Half} (hhalf : half ∈ s.halves)
    (hctx : half.ctx = some ctx) : ∃ ident, Live s ident ctx := by
  rcases h ctx with hlive | hdead
  · exact hlive
  · have hpos : 0 < s.holders ctx := List.countP_pos_iff.mpr ⟨half, hhalf, by simp [hctx]⟩
    rw [hdead.zero] at hpos
    exact absurd hpos (Nat.lt_irrefl 0)

/-- `close` of a half, when others hold the context too. -/
theorem close_kept {half : Half} {c : RFNMContext} {i : Nat} (hi : s.halves[i]? = some half)
    (hctx : half.ctx = some ctx) (hheap : s.heap ctx = some c) (hmore : c.refCount - 1 > 0) :
    s.close i = { s with
      heap := Function.update s.heap ctx (some { c with refCount := c.refCount - 1 })
      halves := s.halves.set i { half with ctx := none } } := by
  simp only [close, hi, hctx, releaseContext, hheap, if_pos hmore]

/-- `close` of the last half. -/
theorem close_last {half : Half} {c : RFNMContext} {i : Nat} (hi : s.halves[i]? = some half)
    (hctx : half.ctx = some ctx) (hheap : s.heap ctx = some c) (hlast : ¬ c.refCount - 1 > 0) :
    s.close i =
      { contexts := Function.update s.contexts c.ident none
        heap := Function.update s.heap ctx none
        devices := fun d => if c.dev = some d then false else s.devices d
        next := s.next
        halves := s.halves.set i { half with ctx := none } } := by
  simp only [close, hi, hctx, releaseContext, hheap, if_neg hlast, deleteContext,
    Function.update_self, Option.bind_some, Function.update_idem]

/-- A half gives its reference back: the context goes with the last one. -/
theorem Sound.close_some (h : Sound s) {half : Half} {i : Nat} (hi : s.halves[i]? = some half)
    (hctx : half.ctx = some ctx) :
    (∀ ctx', ctx' ≠ ctx → SameAt s (s.close i) ctx') ∧
      ((∃ ident, Live (s.close i) ident ctx) ∨
        Dead (s.close i) ctx ∧ (s.close i).heap ctx = none) := by
  obtain ⟨ident, hlive⟩ := Live.of_half h (List.mem_of_getElem? hi) hctx
  obtain ⟨c, hheap, rfl, hcount, hdev⟩ := hlive.heap
  have hpos := hlive.pos
  have hholders := countP_close hi
  have hself : (if half.ctx = some ctx then 1 else 0) = 1 := if_pos hctx
  have hother : ∀ ctx', ctx' ≠ ctx → (if half.ctx = some ctx' then 1 else 0) = 0 := fun ctx' hne =>
    if_neg (by rw [hctx]; exact fun heq => hne (Option.some.inj heq).symm)
  by_cases hmore : c.refCount - 1 > 0
  · -- another half still holds the context
    rw [close_kept hi hctx hheap hmore]
    refine ⟨fun ctx' hne => ⟨Function.update_of_ne hne _ _, ?_, rfl, Nat.le_refl _,
      fun _ => Iff.rfl⟩, Or.inl ⟨c.ident, ⟨_, Function.update_self .., rfl, ?_, hdev⟩, ?_,
      hlive.device, hlive.fresh, hlive.filed⟩⟩
    · exact (hholders ctx').trans (by rw [hother ctx' hne]; rfl)
    · change c.refCount - 1 = ((List.countP _ _ : Nat) : Int)
      rw [hholders ctx, hself]
      change c.refCount - 1 = ((s.holders ctx - 1 : Nat) : Int)
      omega
    · change 0 < List.countP _ _
      rw [hholders ctx, hself]
      change 0 < s.holders ctx - 1
      omega
  · -- the last half: the context is freed and leaves the map
    rw [close_last hi hctx hheap hmore]
    refine ⟨fun ctx' hne => ⟨Function.update_of_ne hne _ _, ?_, if_neg ?_, Nat.le_refl _,
      fun ident' => ?_⟩, Or.inr ⟨⟨fun c' hc => ?_, ?_, if_pos hdev, fun ident' hmap => ?_⟩,
      Function.update_self ..⟩⟩
    · exact (hholders ctx').trans (by rw [hother ctx' hne]; rfl)
    · rw [hdev]
      exact fun heq => hne (Option.some.inj heq).symm
    · dsimp only
      by_cases hident : ident' = c.ident
      · rw [hident, Function.update_self, (hlive.filed c.ident).mpr rfl]
        exact iff_of_false (fun heq => nomatch heq) fun heq => hne (Option.some.inj heq).symm
      · rw [Function.update_of_ne hident]
    · dsimp only at hc
      rw [Function.update_self] at hc
      cases hc
    · change List.countP _ _ = 0
      rw [hholders ctx, hself]
      change s.holders ctx - 1 = 0
      omega
    · dsimp only at hmap
      by_cases hident : ident' = c.ident
      · rw [hident, Function.update_self] at hmap
        cases hmap
      · rw [Function.update_of_ne hident] at hmap
        exact hident ((hlive.filed ident').mp hmap)

/-- A half that was closed before. -/
theorem close_none {half : Half} {i : Nat} (hi : s.halves[i]? = some half)
    (hctx : half.ctx = none) : s.close i = s := by
  obtain ⟨transmits, ctx⟩ := half
  dsimp only at hctx
  subst hctx
  simp only [close, hi]
  obtain ⟨hlt, hget⟩ := List.getElem?_eq_some_iff.mp hi
  rw [← hget, List.set_getElem_self]

theorem Sound.close (h : Sound s) (i : Nat) :
    Sound (s.close i) ∧ (NoLeak s → NoLeak (s.close i)) := by
  cases hi : s.halves[i]? with
  | none => simpa only [RFNMDriver.close, hi] using ⟨h, id⟩
  | some half =>
    cases hctx : half.ctx with
    | none =>
      rw [close_none hi hctx]
      exact ⟨h, id⟩
    | some ctx =>
      obtain ⟨hsame, hat⟩ := h.close_some hi hctx
      exact ⟨h.replace hsame (hat.imp_right And.left),
        fun hleak => hleak.replace hsame (hat.imp_right And.right)⟩

/-! ## Whole runs -/

/-- The device has no TX channel, and the context was acquired. -/
def Strands (s : RFNMDriver) : Op → Prop
  | .openTX ident a => Acquires s ident a ∧ NoChannel a
  | _ => False

/-- The constructor of `rfnm::device` throws. -/
def Forgets (s : RFNMDriver) : Op → Prop
  | .openRX ident a => DeviceThrows s ident a
  | .openTX ident a => DeviceThrows s ident a
  | .close _ => False

/-- `acquireContext` owes a half, or throws and leaves no more than a forgotten context. -/
theorem Sound.acquire (h : Sound s) (ident : String) (a : Answers) :
    (Acquires s ident a ∧ ¬ DeviceThrows s ident a ∧ ∃ s' ctx,
      s.acquireContext ident a = (s', .ok ctx) ∧ ¬ Bookkept s' ∧
      ∀ transmits, Sound (s'.push ⟨transmits, some ctx⟩) ∧
        (NoLeak s → NoLeak (s'.push ⟨transmits, some ctx⟩))) ∨
    (¬ Acquires s ident a ∧ ∃ s' err, s.acquireContext ident a = (s', .error err) ∧ Sound s' ∧
      (NoLeak s → (NoLeak s' ↔ ¬ DeviceThrows s ident a))) := by
  rcases acquire_cases h ident a with ⟨ctx, hmap, heq⟩ | ⟨hmap, hacquires, heq⟩ |
    ⟨hthrows, hnot, err, heq⟩ | ⟨hopen, hnot, n, err, heq⟩
  · refine Or.inl ⟨Or.inl (by simp [hmap]), fun hthrows => by simp [hthrows.1] at hmap, _, _, heq,
      h.retain_not_bookkept hmap, fun transmits => ?_⟩
    obtain ⟨hsame, hlive⟩ := h.retain_push hmap transmits
    exact ⟨h.replace hsame (Or.inl ⟨_, hlive⟩),
      fun hleak => hleak.replace hsame (Or.inl ⟨_, hlive⟩)⟩
  · have hopen : ¬ DeviceThrows s ident a := by
      rintro ⟨-, t, err, hparse, hdevice⟩
      obtain hne | ⟨t', hparse', hdevice', -⟩ := hacquires
      · exact hne hmap
      · rw [hparse] at hparse'
        cases hparse'
        rw [hdevice] at hdevice'
        cases hdevice'
    refine Or.inl ⟨hacquires, hopen, _, _, heq, h.insert_not_bookkept ident, fun transmits => ?_⟩
    obtain ⟨hsame, hlive⟩ := h.insert_push hmap transmits
    exact ⟨h.replace hsame (Or.inl ⟨_, hlive⟩),
      fun hleak => hleak.replace hsame (Or.inl ⟨_, hlive⟩)⟩
  · obtain ⟨hsound, hleak⟩ := h.newContext ident
    exact Or.inr ⟨hnot, _, _, heq, hsound, fun _ => iff_of_false hleak fun hopen => hopen hthrows⟩
  · exact Or.inr ⟨hnot, _, _, heq, h.skip n, fun hleak => iff_of_true hleak hopen⟩

theorem Sound.step (h : Sound s) (op : Op) :
    (¬ Strands s op → Sound (s.step op)) ∧ (Strands s op → ¬ Bookkept (s.step op)) ∧
      (¬ Strands s op → NoLeak s → (NoLeak (s.step op) ↔ ¬ Forgets s op)) := by
  cases op with
  | openRX ident a =>
    rcases h.acquire ident a with
      ⟨-, hopen, s', ctx, heq, -, hpush⟩ | ⟨-, s', err, heq, hsound, hleak⟩
    · have hstep : s.step (.openRX ident a) = s'.push ⟨false, some ctx⟩ := by
        simp only [RFNMDriver.step, openRX, heq, push]
      rw [hstep]
      exact ⟨fun _ => (hpush false).1, fun hfalse => hfalse.elim,
        fun _ hleak => iff_of_true ((hpush false).2 hleak) hopen⟩
    · have hstep : s.step (.openRX ident a) = s' := by simp only [RFNMDriver.step, openRX, heq]
      rw [hstep]
      exact ⟨fun _ => hsound, fun hfalse => hfalse.elim, fun _ => hleak⟩
  | openTX ident a =>
    rcases h.acquire ident a with ⟨hacquires, hopen, s', ctx, heq, hnot, hpush⟩ |
      ⟨hacquires, s', err, heq, hsound, hleak⟩
    · -- the context is acquired before the channel is checked
      by_cases hchannel : NoChannel a
      · have hstep : s.step (.openTX ident a) = s' := by
          have hthrows : a.get_tx_channel_count = 0 ∨ a.is_tx_channel_available = false := hchannel
          simp only [RFNMDriver.step, openTX, heq, if_pos hthrows]
        rw [hstep]
        exact ⟨fun hstrands => absurd ⟨hacquires, hchannel⟩ hstrands, fun _ => hnot,
          fun hstrands => absurd ⟨hacquires, hchannel⟩ hstrands⟩
      · have hstep : s.step (.openTX ident a) = s'.push ⟨true, some ctx⟩ := by
          have hreturns : ¬ (a.get_tx_channel_count = 0 ∨ a.is_tx_channel_available = false) :=
            hchannel
          simp only [RFNMDriver.step, openTX, heq, if_neg hreturns, push]
        rw [hstep]
        exact ⟨fun _ => (hpush true).1, fun hstrands => absurd hstrands.2 hchannel,
          fun _ hleak => iff_of_true ((hpush true).2 hleak) hopen⟩
    · have hstep : s.step (.openTX ident a) = s' := by simp only [RFNMDriver.step, openTX, heq]
      rw [hstep]
      exact ⟨fun _ => hsound, fun hstrands => absurd hstrands.1 hacquires, fun _ => hleak⟩
  | close i =>
    obtain ⟨hsound, hleak⟩ := h.close i
    exact ⟨fun _ => hsound, fun hfalse => hfalse.elim,
      fun _ hno => iff_of_true (hleak hno) fun hfalse => hfalse⟩

theorem run_snoc (s : RFNMDriver) (ops : List Op) (op : Op) :
    s.run (ops ++ [op]) = (s.run ops).step op := by
  rw [run, List.foldl_append]
  rfl

theorem sound_init : Sound init := fun _ =>
  Or.inr ⟨fun _ hc => (nomatch hc), rfl, rfl, fun _ hc => (nomatch hc)⟩

theorem noLeak_init : NoLeak init := fun _ _ hheap => nomatch hheap

/-- Every state of a run is sound if no operation strands a reference. -/
theorem sound_run {ops : List Op}
    (hops : ∀ done op, done ++ [op] <+: ops → ¬ Strands (init.run done) op) {done : List Op}
    (hdone : done <+: ops) : Sound (init.run done) := by
  induction done using List.reverseRecOn with
  | nil => exact sound_init
  | append_singleton done op ih =>
    rw [run_snoc]
    exact ((ih ((List.prefix_append done [op]).trans hdone)).step op).1 (hops done op hdone)

/-- In a run without a violation no operation has stranded a reference. -/
theorem not_strands_of_bookkept {ops : List Op}
    (hkept : ∀ done, done <+: ops → Bookkept (init.run done)) :
    ∀ done op, done ++ [op] <+: ops → ¬ Strands (init.run done) op := by
  have hsound : ∀ done, done <+: ops → Sound (init.run done) := by
    intro done hdone
    induction done using List.reverseRecOn with
    | nil => exact sound_init
    | append_singleton done op ih =>
      have h := ih ((List.prefix_append done [op]).trans hdone)
      rw [run_snoc]
      refine (h.step op).1 fun hstrands => (h.step op).2.1 hstrands ?_
      rw [← run_snoc]
      exact hkept _ hdone
  intro done op hdone hstrands
  refine ((hsound done ((List.prefix_append done [op]).trans hdone)).step op).2.1 hstrands ?_
  rw [← run_snoc]
  exact hkept _ hdone

/-- The books are right after every operation iff no open leaves a reference behind, and no
    context is left over besides iff no device's constructor throws either. -/
theorem bookkept_iff (ops : List Op) :
    ((∀ done, done <+: ops → Bookkept (init.run done)) ↔
      ∀ done op, done ++ [op] <+: ops → ¬ Strands (init.run done) op) ∧
    ((∀ done, done <+: ops → Bookkept (init.run done) ∧ NoLeak (init.run done)) ↔
      ∀ done op, done ++ [op] <+: ops →
        ¬ Strands (init.run done) op ∧ ¬ Forgets (init.run done) op) := by
  have hstart : ∀ {done : List Op} {op : Op}, done ++ [op] <+: ops → done <+: ops :=
    fun {done op} hdone => (List.prefix_append done [op]).trans hdone
  refine ⟨⟨not_strands_of_bookkept, fun hops done hdone => (sound_run hops hdone).bookkept⟩,
    fun hkept => ?_, fun hops done hdone => ?_⟩
  · have hops := not_strands_of_bookkept fun done hdone => (hkept done hdone).1
    refine fun done op hdone => ⟨hops done op hdone, ?_⟩
    have h := sound_run hops (hstart hdone)
    rw [← (h.step op).2.2 (hops done op hdone) (hkept done (hstart hdone)).2, ← run_snoc]
    exact (hkept _ hdone).2
  · have hstrands := fun done op hdone => (hops done op hdone).1
    refine ⟨(sound_run hstrands hdone).bookkept, ?_⟩
    induction done using List.reverseRecOn with
    | nil => exact noLeak_init
    | append_singleton done op ih =>
      have h := sound_run hstrands (hstart hdone)
      rw [run_snoc, (h.step op).2.2 (hops done op hdone).1 (ih (hstart hdone))]
      exact (hops done op hdone).2

/-- A local device without a TX channel. -/
def receiveOnly : Answers where
  device _ _ := none
  get := none
  rx_disable_stale_channels := none
  set_stream_format := none
  get_tx_channel_count := 0
  is_tx_channel_available := false

/-- The transmitter's constructor throws, and the context stays with one reference. -/
theorem open_not_bookkept : ¬ Bookkept (init.run [.openTX "local" receiveOnly]) := by
  intro hkept
  have hheld := (hkept.held 0).mpr ⟨"local", by decide +kernel⟩
  exact absurd hheld (by decide +kernel)

end

end RyFi.Device.RFNMDriver
