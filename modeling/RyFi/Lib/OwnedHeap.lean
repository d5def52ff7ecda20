import Mathlib.Logic.Function.Basic

/-! # Heaps whose blocks have one owner

A `Heap` gives out blocks of elements and takes them back; `free`, `read` and `write` fail on
what is not a live block, or not long enough.  `Owned` says that every live block has exactly
one owner, and what it holds; the lemmas say what an owner may do so that this stays: read and
write its block, free it, get a new one when it has none, and take over that of another owner.
-/

namespace OwnedHeap

variable {ι α : Type}

structure Heap (α : Type) where
  block : Nat → Option (List α)
  /-- No address from here on has been given out. -/
  next : Nat

namespace Heap

def empty : Heap α := ⟨fun _ => none, 0⟩

def set (h : Heap α) (a : Nat) (b : Option (List α)) : Heap α :=
  { h with block := Function.update h.block a b }

@[simp] theorem set_self (h : Heap α) (a : Nat) (b : Option (List α)) : (h.set a b).block a = b := by
  simp only [set, Function.update_self]

theorem set_other (h : Heap α) {a c : Nat} (b : Option (List α)) (hne : c ≠ a) :
    (h.set a b).block c = h.block c := by
  simp only [set, Function.update_of_ne hne]

/-- `delete[]`; nothing happens to NULL. -/
def free (h : Heap α) : Option Nat → Option (Heap α)
  | none => some h
  | some a => (h.block a).map fun _ => h.set a none

/-- `new[]`: a block that holds something, at `next`. -/
def alloc (h : Heap α) (raw : List α) : Heap α :=
  { h.set h.next (some raw) with next := h.next + 1 }

/-- The first `n` elements. -/
def read (h : Heap α) (p : Option Nat) (n : Nat) : Option (List α) :=
  if n = 0 then some []
  else (p.bind h.block).bind fun b => if n ≤ b.length then some (b.take n) else none

/-- `memcpy` to the start of a block. -/
def write (h : Heap α) (p : Option Nat) (src : List α) : Option (Heap α) :=
  if src = [] then some h
  else p.bind fun a => (h.block a).bind fun b =>
    if src.length ≤ b.length then some (h.set a (some (src ++ b.drop src.length))) else none

end Heap

/-- Every live block is that of one owner, and holds what the owner is said to hold. -/
structure Owned (ptr : ι → Option Nat) (held : ι → List α) (h : Heap α) : Prop where
  block_eq : ∀ i a, ptr i = some a → h.block a = some (held i)
  null : ∀ i, ptr i = none → held i = []
  unique : ∀ i j a, ptr i = some a → ptr j = some a → i = j
  owner : ∀ a b, h.block a = some b → ∃ i, ptr i = some a
  fresh : ∀ a, h.next ≤ a → h.block a = none

namespace Owned

variable {ptr : ι → Option Nat} {held : ι → List α} {h : Heap α} {i j : ι} {a : Nat}

theorem empty : Owned (fun _ : ι => none) (fun _ => []) (Heap.empty : Heap α) where
  block_eq _ _ hptr := by cases hptr
  null _ _ := rfl
  unique _ _ _ hptr := by cases hptr
  owner _ _ hblock := by cases hblock
  fresh _ _ := rfl

theorem lt_next (hown : Owned ptr held h) (hptr : ptr i = some a) : a < h.next := by
  refine Nat.lt_of_not_le fun hle => ?_
  have hblock := hown.block_eq i a hptr
  rw [hown.fresh a hle] at hblock
  cases hblock

/-- An owner reads what it holds. -/
theorem read_eq (hown : Owned ptr held h) (i : ι) :
    h.read (ptr i) (held i).length = some (held i) := by
  rw [Heap.read]
  split
  next hzero => rw [List.eq_nil_of_length_eq_zero hzero]
  next hne =>
    cases hptr : ptr i with
    | none =>
      rw [hown.null i hptr] at hne
      exact absurd rfl hne
    | some a =>
      rw [Option.bind_some, hown.block_eq i a hptr, Option.bind_some, if_pos (Nat.le_refl _),
        List.take_length]

section

variable [DecidableEq ι]

theorem write (hown : Owned ptr held h) {src : List α} (hlen : src.length = (held i).length) :
    ∃ h', h.write (ptr i) src = some h' ∧ Owned ptr (Function.update held i src) h' := by
  by_cases hnil : src = []
  · have hheld : held i = [] := List.eq_nil_of_length_eq_zero (by rw [← hlen, hnil, List.length_nil])
    refine ⟨h, by rw [Heap.write, if_pos hnil], ?_⟩
    rw [hnil, ← hheld, Function.update_eq_self]
    exact hown
  · cases hptr : ptr i with
    | none =>
      rw [hown.null i hptr] at hlen
      exact absurd (List.eq_nil_of_length_eq_zero hlen) hnil
    | some a =>
      refine ⟨h.set a (some src), ?_, ?_⟩
      · rw [Heap.write, if_neg hnil, Option.bind_some, hown.block_eq i a hptr, Option.bind_some,
          if_pos (Nat.le_of_eq hlen), hlen, List.drop_length, List.append_nil]
      · refine ⟨fun j b hj => ?_, fun j hj => ?_, hown.unique, fun b l hb => ?_, fun b hb => ?_⟩
        · by_cases hsame : b = a
          · -- nobody else has this block
            obtain rfl := hown.unique j i a (hsame ▸ hj) hptr
            rw [hsame, Heap.set_self, Function.update_self]
          · have hji : j ≠ i := fun heq => hsame (Option.some.inj (hj.symm.trans (heq ▸ hptr)))
            rw [Heap.set_other h _ hsame, Function.update_of_ne hji]
            exact hown.block_eq j b hj
        · have hji : j ≠ i := fun heq => by
            rw [heq, hptr] at hj
            cases hj
          rw [Function.update_of_ne hji]
          exact hown.null j hj
        · by_cases hsame : b = a
          · exact ⟨i, hsame ▸ hptr⟩
          · exact hown.owner b l (Heap.set_other h _ hsame ▸ hb)
        · have hsame : b ≠ a := Nat.ne_of_gt (Nat.lt_of_lt_of_le (hown.lt_next hptr) hb)
          exact (Heap.set_other h _ hsame).trans (hown.fresh b hb)

/-- What an owner has is given back, once. -/
theorem free (hown : Owned ptr held h) (i : ι) :
    ∃ h', h.free (ptr i) = some h' ∧
      Owned (Function.update ptr i none) (Function.update held i []) h' := by
  cases hptr : ptr i with
  | none =>
    refine ⟨h, rfl, ?_⟩
    rw [← hown.null i hptr, ← hptr, Function.update_eq_self, Function.update_eq_self]
    exact hown
  | some a =>
    refine ⟨h.set a none, ?_, ?_⟩
    · rw [Heap.free, hown.block_eq i a hptr, Option.map_some]
    · refine ⟨fun j b hj => ?_, fun j hj => ?_, fun j k b hj hk => ?_, fun b l hb => ?_,
        fun b hb => ?_⟩
      · by_cases hji : j = i
        · rw [hji, Function.update_self] at hj
          cases hj
        · rw [Function.update_of_ne hji] at hj ⊢
          have hsame : b ≠ a := fun heq => hji (hown.unique j i a (heq ▸ hj) hptr)
          rw [Heap.set_other h _ hsame]
          exact hown.block_eq j b hj
      · by_cases hji : j = i
        · rw [hji, Function.update_self]
        · rw [Function.update_of_ne hji] at hj ⊢
          exact hown.null j hj
      · by_cases hji : j = i
        · rw [hji, Function.update_self] at hj
          cases hj
        · by_cases hki : k = i
          · rw [hki, Function.update_self] at hk
            cases hk
          · rw [Function.update_of_ne hji] at hj
            rw [Function.update_of_ne hki] at hk
            exact hown.unique j k b hj hk
      · by_cases hsame : b = a
        · rw [hsame, Heap.set_self] at hb
          cases hb
        · rw [Heap.set_other h _ hsame] at hb
          obtain ⟨j, hj⟩ := hown.owner b l hb
          have hji : j ≠ i := fun heq => hsame (Option.some.inj (hj.symm.trans (heq ▸ hptr)))
          exact ⟨j, by rw [Function.update_of_ne hji, hj]⟩
      · by_cases hsame : b = a
        · rw [hsame, Heap.set_self]
        · rw [Heap.set_other h _ hsame]
          exact hown.fresh b hb

theorem alloc (hown : Owned ptr held h) (hptr : ptr i = none) (raw : List α) :
    Owned (Function.update ptr i (some h.next)) (Function.update held i raw) (h.alloc raw) := by
  refine ⟨fun j b hj => ?_, fun j hj => ?_, fun j k b hj hk => ?_, fun b l hb => ?_,
    fun b hb => ?_⟩
  · by_cases hji : j = i
    · rw [hji, Function.update_self] at hj ⊢
      rw [← Option.some.inj hj]
      exact Heap.set_self h _ _
    · rw [Function.update_of_ne hji] at hj ⊢
      exact (Heap.set_other h _ (Nat.ne_of_lt (hown.lt_next hj))).trans (hown.block_eq j b hj)
  · by_cases hji : j = i
    · rw [hji, Function.update_self] at hj
      cases hj
    · rw [Function.update_of_ne hji] at hj ⊢
      exact hown.null j hj
  · by_cases hji : j = i
    · by_cases hki : k = i
      · rw [hji, hki]
      · rw [hji, Function.update_self] at hj
        rw [Function.update_of_ne hki] at hk
        exact absurd (Option.some.inj hj).symm (Nat.ne_of_lt (hown.lt_next hk))
    · by_cases hki : k = i
      · rw [hki, Function.update_self] at hk
        rw [Function.update_of_ne hji] at hj
        exact absurd (Option.some.inj hk).symm (Nat.ne_of_lt (hown.lt_next hj))
      · rw [Function.update_of_ne hji] at hj
        rw [Function.update_of_ne hki] at hk
        exact hown.unique j k b hj hk
  · by_cases hnew : b = h.next
    · exact ⟨i, by rw [Function.update_self, hnew]⟩
    · obtain ⟨j, hj⟩ := hown.owner b l (Heap.set_other h _ hnew ▸ hb)
      have hji : j ≠ i := fun heq => by
        rw [heq, hptr] at hj
        cases hj
      exact ⟨j, by rw [Function.update_of_ne hji, hj]⟩
  · have hlt : h.next < b := Nat.lt_of_succ_le hb
    exact (Heap.set_other h _ (Nat.ne_of_gt hlt)).trans (hown.fresh b (Nat.le_of_lt hlt))

/-- Owner `i`, who has nothing, takes over what `j` has. -/
theorem move (hown : Owned ptr held h) (hptr : ptr i = none) (j : ι) :
    Owned (Function.update (Function.update ptr i (ptr j)) j none)
      (Function.update (Function.update held i (held j)) j []) h := by
  by_cases hij : i = j
  · have hsame : ptr j = none := hij ▸ hptr
    have hptrs : Function.update ptr j none = ptr := by rw [← hsame, Function.update_eq_self]
    rw [hij, Function.update_idem, Function.update_idem, ← hown.null j hsame,
      Function.update_eq_self, hptrs]
    exact hown
  · have hptr' : ∀ k b, Function.update (Function.update ptr i (ptr j)) j none k = some b →
        (k = i ∧ ptr j = some b) ∨ (k ≠ i ∧ k ≠ j ∧ ptr k = some b) := by
      intro k b hk
      by_cases hkj : k = j
      · rw [hkj, Function.update_self] at hk
        cases hk
      · rw [Function.update_of_ne hkj] at hk
        by_cases hki : k = i
        · rw [hki, Function.update_self] at hk
          exact Or.inl ⟨hki, hk⟩
        · rw [Function.update_of_ne hki] at hk
          exact Or.inr ⟨hki, hkj, hk⟩
    refine ⟨fun k b hk => ?_, fun k hk => ?_, fun k l b hk hl => ?_, fun b m hb => ?_, hown.fresh⟩
    · rcases hptr' k b hk with ⟨rfl, hj⟩ | ⟨hki, hkj, hk⟩
      · rw [Function.update_of_ne hij, Function.update_self]
        exact hown.block_eq j b hj
      · rw [Function.update_of_ne hkj, Function.update_of_ne hki]
        exact hown.block_eq k b hk
    · by_cases hkj : k = j
      · rw [hkj, Function.update_self]
      · rw [Function.update_of_ne hkj] at hk ⊢
        by_cases hki : k = i
        · rw [hki, Function.update_self] at hk ⊢
          exact hown.null j hk
        · rw [Function.update_of_ne hki] at hk ⊢
          exact hown.null k hk
    · rcases hptr' k b hk with ⟨rfl, hj⟩ | ⟨-, hkj, hold⟩
      · rcases hptr' l b hl with ⟨rfl, -⟩ | ⟨-, hlj, hold⟩
        · rfl
        · exact absurd (hown.unique l j b hold hj) hlj
      · rcases hptr' l b hl with ⟨rfl, hj⟩ | ⟨-, -, hold'⟩
        · exact absurd (hown.unique k j b hold hj) hkj
        · exact hown.unique k l b hold hold'
    · obtain ⟨k, hk⟩ := hown.owner b m hb
      by_cases hkj : k = j
      · exact ⟨i, by rw [Function.update_of_ne hij, Function.update_self, ← hkj, hk]⟩
      · have hki : k ≠ i := fun heq => by
          rw [heq, hptr] at hk
          cases hk
        exact ⟨k, by rw [Function.update_of_ne hkj, Function.update_of_ne hki, hk]⟩

end

end Owned

end OwnedHeap
