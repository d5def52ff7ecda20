import RyFi.Lib.OwnedHeap
import RyFi.Modem.Frame

/-! # The buffers of packets

`packet.cpp` keeps the content of a packet in a buffer of its own, which its constructors,
assignments and destructor allocate, copy, hand over and free.  Elsewhere a packet is its
content (`Packet`); here it is shown that this is sound.  Whatever is done to packets, no
buffer is freed twice or used after it was freed, two packets never share one, none is lost,
and every packet reads as the value that was put into it.

Memory from `new` is uninitialized: what is in it is a parameter.
-/

namespace RyFi.Modem

open OwnedHeap

variable {ι : Type}

/-- A packet in memory. -/
structure PacketObject where
  content : Option Nat
  size : Nat

/-- The packets that exist, and the heap. -/
structure PacketMemory (ι : Type) where
  object : ι → Option PacketObject
  heap : Heap UInt8

namespace PacketMemory

def init : PacketMemory ι := ⟨fun _ => none, .empty⟩

section

variable [DecidableEq ι] (garbage : Nat → Nat → UInt8)

/-- The default constructor: the initializers of the members. -/
def create (m : PacketMemory ι) (x : ι) : PacketMemory ι :=
  { m with object := Function.update m.object x (some ⟨none, 0⟩) }

/-- `allocate` -/
def allocate (m : PacketMemory ι) (x : ι) (newSize : Nat) : Option (PacketMemory ι) := do
  let p ← m.object x
  if newSize = p.size then return m
  let heap ← m.heap.free p.content
  return {
    object := Function.update m.object x (some ⟨some heap.next, newSize⟩)
    heap := heap.alloc ((List.range newSize).map (garbage heap.next)) }

/-- `memcpy` to the content. -/
def fill (m : PacketMemory ι) (x : ι) (bytes : List UInt8) : Option (PacketMemory ι) := do
  let p ← m.object x
  let heap ← m.heap.write p.content bytes
  return { m with heap := heap }

/-- What the constructor and `setContent` do with a content that is not too large. -/
def setBytes (m : PacketMemory ι) (x : ι) (bytes : List UInt8) : Option (PacketMemory ι) := do
  let m ← m.allocate garbage x bytes.length
  m.fill x bytes

/-- What the copy constructor and the copy assignment do. -/
def copyFrom (m : PacketMemory ι) (x y : ι) : Option (PacketMemory ι) := do
  let b ← m.object y
  let m ← m.allocate garbage x b.size
  -- `b` is a reference: an assignment of a packet to itself sees the new members
  let b ← m.object y
  let bytes ← m.heap.read b.content b.size
  m.fill x bytes

/-- The members of `y` are moved to `x`. -/
def takeFrom (m : PacketMemory ι) (x y : ι) : Option (PacketMemory ι) := do
  let b ← m.object y
  -- the source is cleared last, so that a packet moved to itself is empty
  return { m with
    object := Function.update (Function.update m.object x (some b)) y (some ⟨none, 0⟩) }

/-- `delete[] _content`, if there is one. -/
def release (m : PacketMemory ι) (x : ι) : Option (PacketMemory ι) := do
  let p ← m.object x
  let heap ← m.heap.free p.content
  return { m with heap := heap }

end

end PacketMemory

/-- What a program does with packets. -/
inductive PacketOp (ι : Type) where
  | default (x : ι)
  | construct (x : ι) (content : List UInt8)
  | copy (x y : ι)
  | move (x y : ι)
  | copyAssign (x y : ι)
  | moveAssign (x y : ι)
  | setContent (x : ι) (content : List UInt8)
  | destroy (x : ι)

section

variable [DecidableEq ι]

/-- An operation on the memory; content that is too large is an exception, before anything is
    done. -/
def PacketMemory.step (garbage : Nat → Nat → UInt8) (m : PacketMemory ι) :
    PacketOp ι → Option (PacketMemory ι)
  | .default x => m.create x
  | .construct x content =>
    if content.length > MAX_CONTENT_SIZE then m else (m.create x).setBytes garbage x content
  | .copy x y => (m.create x).copyFrom garbage x y
  | .move x y => (m.create x).takeFrom x y
  | .copyAssign x y => m.copyFrom garbage x y
  | .moveAssign x y => do (← m.release x).takeFrom x y
  | .setContent x content =>
    if content.length > MAX_CONTENT_SIZE then m else m.setBytes garbage x content
  | .destroy x => do
    let m ← m.release x
    return { m with object := Function.update m.object x none }

def PacketMemory.run (garbage : Nat → Nat → UInt8) (m : PacketMemory ι) (ops : List (PacketOp ι)) :
    Option (PacketMemory ι) :=
  ops.foldlM (PacketMemory.step garbage) m

/-! ## Packets as values -/

/-- What an operation means.  A program only constructs what does not exist, and only uses
    what does. -/
def valueStep (values : ι → Option Packet) : PacketOp ι → Option (ι → Option Packet)
  | .default x =>
    if values x = none then some (Function.update values x (some Packet.empty)) else none
  | .construct x content =>
    if values x = none then
      match Packet.create? content with
      | none => some values
      | some p => some (Function.update values x (some p))
    else none
  | .copy x y =>
    if values x = none then
      (values y).map fun p => Function.update values x (some p)
    else none
  | .move x y =>
    if values x = none then
      (values y).map fun p =>
        Function.update (Function.update values x (some p)) y (some Packet.empty)
    else none
  | .copyAssign x y =>
    (values x).bind fun _ => (values y).map fun p => Function.update values x (some p)
  | .moveAssign x y =>
    (values x).bind fun _ => (values y).map fun p =>
      Function.update (Function.update values x (some p)) y (some Packet.empty)
  | .setContent x content =>
    (values x).map fun _ =>
      match Packet.create? content with
      | none => values
      | some p => Function.update values x (some p)
  | .destroy x => (values x).map fun _ => Function.update values x none

def valueRun (values : ι → Option Packet) (ops : List (PacketOp ι)) : Option (ι → Option Packet) :=
  ops.foldlM valueStep values

/-! ## What is in the buffers -/

/-- The buffers of the packets. -/
def PacketMemory.ptr (m : PacketMemory ι) (x : ι) : Option Nat :=
  (m.object x).bind PacketObject.content

/-- The content of a packet, nothing for one that does not exist. -/
def held (contents : ι → Option (List UInt8)) (x : ι) : List UInt8 := (contents x).getD []

/-- The packets exist with these contents, each in a buffer of its own, and there are no other
    buffers. -/
structure Represents (contents : ι → Option (List UInt8)) (m : PacketMemory ι) : Prop where
  sizes : ∀ x, (m.object x).map PacketObject.size = (contents x).map List.length
  owned : Owned m.ptr (held contents) m.heap

variable {contents : ι → Option (List UInt8)} {m : PacketMemory ι}
  {x y : ι} {l l' : List UInt8}

theorem ptr_update (m : PacketMemory ι) (x : ι) (o : Option PacketObject) (heap : Heap UInt8) :
    (PacketMemory.mk (Function.update m.object x o) heap).ptr =
      Function.update m.ptr x (o.bind PacketObject.content) := by
  funext z
  simp only [PacketMemory.ptr, Function.update_apply]
  split <;> rfl

theorem held_update (contents : ι → Option (List UInt8)) (x : ι) (o : Option (List UInt8)) :
    held (Function.update contents x o) = Function.update (held contents) x (o.getD []) := by
  funext z
  simp only [held, Function.update_apply]
  split <;> rfl

theorem sizes_update {object : ι → Option PacketObject} {o : Option PacketObject}
    {c : Option (List UInt8)}
    (h : ∀ z, (object z).map PacketObject.size = (contents z).map List.length)
    (hsize : o.map PacketObject.size = c.map List.length) (x z : ι) :
    (Function.update object x o z).map PacketObject.size =
      (Function.update contents x c z).map List.length := by
  simp only [Function.update_apply]
  split
  · exact hsize
  · exact h z

omit [DecidableEq ι] in
theorem represents_init : Represents (fun _ : ι => none) PacketMemory.init where
  sizes _ := rfl
  owned := Owned.empty

namespace Represents

omit [DecidableEq ι] in
/-- What exists as a value exists in memory. -/
theorem exists_object (h : Represents contents m) (hx : contents x = some l) :
    ∃ p, m.object x = some p ∧ p.size = l.length ∧ m.ptr x = p.content := by
  have hsize := h.sizes x
  cases hp : m.object x with
  | none =>
    rw [hp, hx] at hsize
    cases hsize
  | some p =>
    rw [hp, hx] at hsize
    exact ⟨p, rfl, Option.some.inj hsize, by rw [PacketMemory.ptr, hp, Option.bind_some]⟩

omit [DecidableEq ι] in
theorem ptr_none (h : Represents contents m) (hx : contents x = none) : m.ptr x = none := by
  have hsize := h.sizes x
  rw [hx, Option.map_none, Option.map_eq_none_iff] at hsize
  rw [PacketMemory.ptr, hsize, Option.bind_none]

theorem create (h : Represents contents m) (hx : contents x = none) :
    Represents (Function.update contents x (some [])) (m.create x) where
  sizes := sizes_update h.sizes rfl x
  owned := by
    have hptr : Function.update m.ptr x none = m.ptr := by
      rw [← h.ptr_none hx, Function.update_eq_self]
    have hheld : Function.update (held contents) x [] = held contents := by
      rw [← h.owned.null x (h.ptr_none hx), Function.update_eq_self]
    rw [PacketMemory.create, ptr_update, held_update, Option.bind_some, Option.getD_some, hptr, hheld]
    exact h.owned

/-- A new buffer of another size holds anything; of the same size it is the old one. -/
theorem allocate (garbage : Nat → Nat → UInt8) (h : Represents contents m)
    (hx : contents x = some l) (n : Nat) :
    ∃ m' l', m.allocate garbage x n = some m' ∧ l'.length = n ∧ (n = l.length → l' = l) ∧
      Represents (Function.update contents x (some l')) m' := by
  obtain ⟨p, hp, hsize, hptr⟩ := h.exists_object hx
  by_cases hn : n = p.size
  · refine ⟨m, l, ?_, (hn.trans hsize).symm, fun _ => rfl, ?_⟩
    · simp [PacketMemory.allocate, hp, hn]
    · rw [← hx, Function.update_eq_self]
      exact h
  · obtain ⟨heap, hfree, hown⟩ := h.owned.free x
    rw [hptr] at hfree
    refine ⟨⟨Function.update m.object x (some ⟨some heap.next, n⟩),
      heap.alloc ((List.range n).map (garbage heap.next))⟩,
      (List.range n).map (garbage heap.next), ?_, ?_, ?_, ?_, ?_⟩
    · simp [PacketMemory.allocate, hp, hn, hfree]
    · rw [List.length_map, List.length_range]
    · intro hsame
      exact absurd (hsame.trans hsize.symm) hn
    · exact sizes_update h.sizes (by simp) x
    · have halloc := hown.alloc (Function.update_self x none m.ptr)
        ((List.range n).map (garbage heap.next))
      rw [Function.update_idem, Function.update_idem] at halloc
      rw [ptr_update, held_update]
      exact halloc

theorem fill (h : Represents contents m) (hx : contents x = some l) {bytes : List UInt8}
    (hlen : bytes.length = l.length) :
    ∃ m', m.fill x bytes = some m' ∧ Represents (Function.update contents x (some bytes)) m' := by
  obtain ⟨p, hp, hsize, hptr⟩ := h.exists_object hx
  have hheld : held contents x = l := by rw [held, hx, Option.getD_some]
  obtain ⟨heap, hwrite, hown⟩ := h.owned.write (i := x) (hheld ▸ hlen)
  rw [hptr] at hwrite
  refine ⟨{ m with heap := heap }, ?_, fun z => ?_, ?_⟩
  · simp [PacketMemory.fill, hp, hwrite]
  · have hsame := @sizes_update _ _ _ m.object (m.object x) (some bytes) h.sizes
      (by rw [hp, Option.map_some, Option.map_some, hsize, hlen]) x z
    rw [Function.update_eq_self] at hsame
    exact hsame
  · rw [held_update]
    exact hown

omit [DecidableEq ι] in
theorem read (h : Represents contents m) (hx : contents x = some l) {p : PacketObject}
    (hp : m.object x = some p) : m.heap.read p.content p.size = some l := by
  obtain ⟨q, hq, hsize, hptr⟩ := h.exists_object hx
  obtain rfl := Option.some.inj (hp.symm.trans hq)
  have hread := h.owned.read_eq x
  rw [held, hx, Option.getD_some, hptr, ← hsize] at hread
  exact hread

theorem setBytes (garbage : Nat → Nat → UInt8) (h : Represents contents m) (hx : contents x = some l)
    (bytes : List UInt8) :
    ∃ m', m.setBytes garbage x bytes = some m' ∧
      Represents (Function.update contents x (some bytes)) m' := by
  obtain ⟨m₁, l₁, hallocate, hlen, -, h₁⟩ := h.allocate garbage hx bytes.length
  obtain ⟨m₂, hfill, h₂⟩ := h₁.fill (Function.update_self x (some l₁) contents) hlen.symm
  rw [Function.update_idem] at h₂
  refine ⟨m₂, ?_, h₂⟩
  simp [PacketMemory.setBytes, hallocate, hfill]

/-- A packet may be copied to itself: its buffer stays as it is. -/
theorem copyFrom (garbage : Nat → Nat → UInt8) (h : Represents contents m)
    (hx : contents x = some l) (hy : contents y = some l') :
    ∃ m', m.copyFrom garbage x y = some m' ∧
      Represents (Function.update contents x (some l')) m' := by
  obtain ⟨b, hb, hsize, -⟩ := h.exists_object hy
  obtain ⟨m₁, l₁, hallocate, hlen, hsame, h₁⟩ := h.allocate garbage hx l'.length
  have hy₁ : Function.update contents x (some l₁) y = some l' := by
    by_cases hyx : y = x
    · subst hyx
      obtain rfl := Option.some.inj (hx.symm.trans hy)
      rw [Function.update_self, hsame rfl]
    · rw [Function.update_of_ne hyx, hy]
  obtain ⟨b₁, hb₁, -⟩ := h₁.exists_object hy₁
  have hread := h₁.read hy₁ hb₁
  obtain ⟨m₂, hfill, h₂⟩ := h₁.fill (Function.update_self x (some l₁) contents) hlen.symm
  rw [Function.update_idem] at h₂
  refine ⟨m₂, ?_, h₂⟩
  simp [PacketMemory.copyFrom, hb, hsize, hallocate, hb₁, hread, hfill]

/-- The buffer of a packet is freed; its members are left as they are. -/
theorem release (h : Represents contents m) (hx : contents x = some l) :
    ∃ heap, m.release x = some { m with heap := heap } ∧
      Owned (Function.update m.ptr x none) (Function.update (held contents) x []) heap := by
  obtain ⟨p, hp, -, hptr⟩ := h.exists_object hx
  obtain ⟨heap, hfree, hown⟩ := h.owned.free x
  rw [hptr] at hfree
  refine ⟨heap, ?_, hown⟩
  simp [PacketMemory.release, hp, hfree]

/-- A packet that owns nothing takes over the buffer of another one, or of itself. -/
theorem takeFrom {heap : Heap UInt8} (h : Represents contents m)
    (hown : Owned (Function.update m.ptr x none) (Function.update (held contents) x []) heap)
    (hy : contents y = some l) :
    ∃ m', ({ m with heap := heap } : PacketMemory ι).takeFrom x y = some m' ∧
      Represents (Function.update (Function.update contents x (some l)) y (some [])) m' := by
  obtain ⟨b, hb, hsize, hptr⟩ := h.exists_object hy
  refine ⟨⟨Function.update (Function.update m.object x (some b)) y (some ⟨none, 0⟩), heap⟩, ?_,
    fun z => ?_, ?_⟩
  · simp [PacketMemory.takeFrom, hb]
  · exact sizes_update (sizes_update h.sizes (by simp [hsize]) x) rfl y z
  · have hmove := hown.move (Function.update_self x none m.ptr) y
    have hheld : held contents y = l := by rw [held, hy, Option.getD_some]
    have hptrs := ptr_update ⟨Function.update m.object x (some b), heap⟩ y (some ⟨none, 0⟩) heap
    rw [ptr_update m x (some b) heap] at hptrs
    rw [hptrs, held_update, held_update]
    rw [Function.update_idem, Function.update_idem] at hmove
    by_cases hyx : y = x
    · rw [hyx, Function.update_idem, Function.update_idem] at hmove ⊢
      exact hmove
    · rw [Function.update_of_ne hyx, Function.update_of_ne hyx, hptr, hheld] at hmove
      exact hmove

theorem moveAssign (h : Represents contents m) (hx : contents x = some l')
    (hy : contents y = some l) :
    ∃ m₁ m', m.release x = some m₁ ∧ m₁.takeFrom x y = some m' ∧
      Represents (Function.update (Function.update contents x (some l)) y (some [])) m' := by
  obtain ⟨heap, hrelease, hown⟩ := h.release hx
  obtain ⟨m', htake, h'⟩ := h.takeFrom hown hy
  exact ⟨_, m', hrelease, htake, h'⟩

theorem move (h : Represents contents m) (hx : contents x = none) (hy : contents y = some l) :
    ∃ m', (m.create x).takeFrom x y = some m' ∧
      Represents (Function.update (Function.update contents x (some l)) y (some [])) m' := by
  have hcreate := h.create hx
  have hptr : (m.create x).ptr x = none := by
    rw [PacketMemory.create, ptr_update, Function.update_self, Option.bind_some]
  have hown : Owned (Function.update (m.create x).ptr x none)
      (Function.update (held (Function.update contents x (some []))) x []) m.heap := by
    have hheld := hcreate.owned.null x hptr
    rw [← hptr, Function.update_eq_self]
    nth_rewrite 2 [← hheld]
    rw [Function.update_eq_self]
    exact hcreate.owned
  have hyx : y ≠ x := fun heq => by
    rw [heq, hx] at hy
    cases hy
  obtain ⟨m', htake, h'⟩ := hcreate.takeFrom hown ((Function.update_of_ne hyx _ _).trans hy)
  rw [Function.update_idem] at h'
  exact ⟨m', htake, h'⟩

theorem destroy (h : Represents contents m) (hx : contents x = some l) :
    ∃ m', m.release x = some m' ∧
      Represents (Function.update contents x none)
        { m' with object := Function.update m'.object x none } := by
  obtain ⟨heap, hrelease, hown⟩ := h.release hx
  refine ⟨_, hrelease, sizes_update h.sizes rfl x, ?_⟩
  rw [ptr_update, held_update]
  exact hown

omit [DecidableEq ι] in
/-- When no packet is left no buffer is. -/
theorem no_leak (h : Represents contents m) (hnone : ∀ x, contents x = none) (a : Nat) :
    m.heap.block a = none := by
  cases hblock : m.heap.block a with
  | none => rfl
  | some b =>
    obtain ⟨x, hx⟩ := h.owned.owner a b hblock
    rw [h.ptr_none (hnone x)] at hx
    cases hx

end Represents

/-! ## Runs -/

/-- The contents of packets. -/
def contentsOf (values : ι → Option Packet) (x : ι) : Option (List UInt8) :=
  (values x).map Packet.content

theorem contentsOf_update (values : ι → Option Packet) (x : ι) (o : Option Packet) :
    contentsOf (Function.update values x o) =
      Function.update (contentsOf values) x (o.map Packet.content) := by
  funext z
  simp only [contentsOf, Function.update_apply]
  split <;> rfl

omit [DecidableEq ι] in
theorem contentsOf_none {values : ι → Option Packet} (hx : values x = none) :
    contentsOf values x = none := by
  rw [contentsOf, hx, Option.map_none]

omit [DecidableEq ι] in
theorem contentsOf_some {values : ι → Option Packet} {p : Packet} (hx : values x = some p) :
    contentsOf values x = some p.content := by
  rw [contentsOf, hx, Option.map_some]

variable {values values' : ι → Option Packet}

theorem represents_construct (garbage : Nat → Nat → UInt8) (h : Represents (contentsOf values) m)
    (hstep : valueStep values (.construct x l) = some values') :
    ∃ m', m.step garbage (.construct x l) = some m' ∧ Represents (contentsOf values') m' := by
  simp only [valueStep] at hstep
  split at hstep
  next hx =>
    by_cases hl : l.length ≤ MAX_CONTENT_SIZE
    · rw [Packet.create?_of_le hl] at hstep
      obtain rfl := Option.some.inj hstep
      obtain ⟨m', hset, h'⟩ := (h.create (contentsOf_none hx)).setBytes garbage
        (Function.update_self x (some []) (contentsOf values)) l
      rw [Function.update_idem] at h'
      refine ⟨m', ?_, contentsOf_update values x _ ▸ h'⟩
      rw [PacketMemory.step, if_neg (Nat.not_lt.mpr hl), hset]
    · have hgt := Nat.lt_of_not_le hl
      rw [Packet.create?_of_gt hgt] at hstep
      obtain rfl := Option.some.inj hstep
      exact ⟨m, by rw [PacketMemory.step, if_pos hgt], h⟩
  next => cases hstep

theorem represents_setContent (garbage : Nat → Nat → UInt8) (h : Represents (contentsOf values) m)
    (hstep : valueStep values (.setContent x l) = some values') :
    ∃ m', m.step garbage (.setContent x l) = some m' ∧ Represents (contentsOf values') m' := by
  simp only [valueStep, Option.map_eq_some_iff] at hstep
  obtain ⟨p, hx, hstep⟩ := hstep
  by_cases hl : l.length ≤ MAX_CONTENT_SIZE
  · rw [Packet.create?_of_le hl] at hstep
    obtain rfl := hstep
    obtain ⟨m', hset, h'⟩ := h.setBytes garbage (contentsOf_some hx) l
    refine ⟨m', ?_, contentsOf_update values x _ ▸ h'⟩
    rw [PacketMemory.step, if_neg (Nat.not_lt.mpr hl), hset]
  · have hgt := Nat.lt_of_not_le hl
    rw [Packet.create?_of_gt hgt] at hstep
    obtain rfl := hstep
    exact ⟨m, by rw [PacketMemory.step, if_pos hgt], h⟩

/-- What means something does not fail, and has that meaning. -/
theorem represents_step (garbage : Nat → Nat → UInt8) (h : Represents (contentsOf values) m)
    {op : PacketOp ι} (hstep : valueStep values op = some values') :
    ∃ m', m.step garbage op = some m' ∧ Represents (contentsOf values') m' := by
  cases op with
  | default x =>
    simp only [valueStep] at hstep
    split at hstep
    next hx =>
      obtain rfl := Option.some.inj hstep
      exact ⟨_, rfl, contentsOf_update values x _ ▸ h.create (contentsOf_none hx)⟩
    next => cases hstep
  | construct x l => exact represents_construct garbage h hstep
  | copy x y =>
    simp only [valueStep] at hstep
    split at hstep
    next hx =>
      obtain ⟨p, hy, rfl⟩ := Option.map_eq_some_iff.mp hstep
      have hyx : y ≠ x := fun heq => by
        rw [heq, hx] at hy
        cases hy
      obtain ⟨m', hcopy, h'⟩ := (h.create (contentsOf_none hx)).copyFrom garbage
        (Function.update_self x (some []) (contentsOf values))
        ((Function.update_of_ne hyx _ _).trans (contentsOf_some hy))
      rw [Function.update_idem] at h'
      exact ⟨m', hcopy, contentsOf_update values x _ ▸ h'⟩
    next => cases hstep
  | move x y =>
    simp only [valueStep] at hstep
    split at hstep
    next hx =>
      obtain ⟨p, hy, rfl⟩ := Option.map_eq_some_iff.mp hstep
      obtain ⟨m', hmove, h'⟩ := h.move (contentsOf_none hx) (contentsOf_some hy)
      refine ⟨m', hmove, ?_⟩
      rw [contentsOf_update, contentsOf_update]
      exact h'
    next => cases hstep
  | copyAssign x y =>
    simp only [valueStep, Option.bind_eq_some_iff, Option.map_eq_some_iff] at hstep
    obtain ⟨q, hx, p, hy, rfl⟩ := hstep
    obtain ⟨m', hcopy, h'⟩ := h.copyFrom garbage (contentsOf_some hx) (contentsOf_some hy)
    exact ⟨m', hcopy, contentsOf_update values x _ ▸ h'⟩
  | moveAssign x y =>
    simp only [valueStep, Option.bind_eq_some_iff, Option.map_eq_some_iff] at hstep
    obtain ⟨q, hx, p, hy, rfl⟩ := hstep
    obtain ⟨m₁, m', hrelease, htake, h'⟩ := h.moveAssign (contentsOf_some hx) (contentsOf_some hy)
    refine ⟨m', ?_, ?_⟩
    · simp [PacketMemory.step, hrelease, htake]
    · rw [contentsOf_update, contentsOf_update]
      exact h'
  | setContent x l => exact represents_setContent garbage h hstep
  | destroy x =>
    simp only [valueStep, Option.map_eq_some_iff] at hstep
    obtain ⟨p, hx, rfl⟩ := hstep
    obtain ⟨m', hrelease, h'⟩ := h.destroy (contentsOf_some hx)
    refine ⟨{ m' with object := Function.update m'.object x none }, ?_, ?_⟩
    · simp [PacketMemory.step, hrelease]
    · rw [contentsOf_update]
      exact h'

theorem represents_run (garbage : Nat → Nat → UInt8) (h : Represents (contentsOf values) m)
    {ops : List (PacketOp ι)} (hrun : valueRun values ops = some values') :
    ∃ m', m.run garbage ops = some m' ∧ Represents (contentsOf values') m' := by
  induction ops generalizing values m with
  | nil =>
    obtain rfl := Option.some.inj hrun
    exact ⟨m, rfl, h⟩
  | cons op ops ih =>
    simp only [valueRun, List.foldlM_cons, Option.bind_eq_bind, Option.bind_eq_some_iff] at hrun
    obtain ⟨values₁, hstep, hrest⟩ := hrun
    obtain ⟨m₁, hmstep, h₁⟩ := represents_step garbage h hstep
    obtain ⟨m', hmrun, h'⟩ := ih h₁ hrest
    refine ⟨m', ?_, h'⟩
    simp only [PacketMemory.run, List.foldlM_cons, hmstep, Option.bind_eq_bind, Option.bind_some]
    exact hmrun

end

/-- A packet is copied, assigned to itself, moved away and moved on. -/
def samplePacketOps : List (PacketOp Nat) :=
  [.construct 0 [1, 2, 3], .copy 1 0, .copyAssign 1 1, .move 2 0, .setContent 0 [4], .moveAssign 1 2,
    .moveAssign 0 0, .destroy 0, .destroy 2]

end RyFi.Modem
