import Mathlib.Data.List.Forall2
import Mathlib.Logic.Relation

/-! # Transmission with losses

`Lossy R n xs ys`: the `ys` are made of `xs`, one of each in order, except that up to `n` of the
`xs` in between are lost and that those at the end may still be on their way.  Lossy
transmissions compose (`Lossy.comp`), and their losses add up.
-/

variable {α β γ : Type}

inductive Lossy (R : α → β → Prop) : Nat → List α → List β → Prop where
  /-- The rest is on its way. -/
  | pending {n : Nat} (xs : List α) : Lossy R n xs []
  | pass {n : Nat} {x : α} {y : β} {xs : List α} {ys : List β} (made : R x y)
      (rest : Lossy R n xs ys) : Lossy R n (x :: xs) (y :: ys)
  | lose {n : Nat} (x : α) {xs : List α} {ys : List β} (rest : Lossy R n xs ys) :
      Lossy R (n + 1) (x :: xs) ys

namespace Lossy

variable {R R' : α → β → Prop} {S : β → γ → Prop} {n n' m : Nat} {xs xs' : List α}
  {ys ys' : List β} {zs : List γ}

theorem more (h : Lossy R n xs ys) (hle : n ≤ n') : Lossy R n' xs ys := by
  induction h generalizing n' with
  | pending xs => exact .pending xs
  | pass made rest ih => exact .pass made (ih hle)
  | lose x rest ih =>
    obtain ⟨k, rfl⟩ := Nat.exists_eq_add_of_le hle
    rw [Nat.add_right_comm]
    exact .lose x (ih (Nat.le_add_right _ k))

theorem imp (h : Lossy R n xs ys) (himp : ∀ x ∈ xs, ∀ y ∈ ys, R x y → R' x y) :
    Lossy R' n xs ys := by
  induction h with
  | pending xs => exact .pending xs
  | pass made rest ih =>
    refine .pass (himp _ List.mem_cons_self _ List.mem_cons_self made) (ih fun x hx y hy => ?_)
    exact himp x (List.mem_cons_of_mem _ hx) y (List.mem_cons_of_mem _ hy)
  | lose x rest ih => exact .lose x (ih fun x hx => himp x (List.mem_cons_of_mem _ hx))

theorem append (h : Lossy R n xs ys) (xs' : List α) : Lossy R n (xs ++ xs') ys := by
  induction h with
  | pending xs => exact .pending _
  | pass made rest ih => exact .pass made ih
  | lose x rest ih => exact .lose x ih

/-- Less of the input was not needed for less of the output. -/
theorem of_initial (h : Lossy R n xs ys) (hle : ys' <+: ys) : Lossy R n xs ys' := by
  induction h generalizing ys' with
  | pending xs => rw [List.prefix_nil.mp hle]; exact .pending xs
  | pass made rest ih =>
    cases ys' with
    | nil => exact .pending _
    | cons y ys' =>
      obtain ⟨rfl, hrest⟩ := List.cons_prefix_cons.mp hle
      exact .pass made (ih hrest)
  | lose x rest ih => exact .lose x (ih hle)

theorem of_sublist {kept used : List α} (hsub : kept.Sublist used)
    (hmade : List.Forall₂ R kept ys) (hlost : used.length ≤ kept.length + n) :
    Lossy R n used ys := by
  induction hsub generalizing ys n with
  | slnil =>
    cases hmade
    exact .pending []
  | @cons kept used x hsub ih =>
    have hle := hsub.length_le
    rw [List.length_cons] at hlost
    obtain ⟨k, rfl⟩ : ∃ k, n = k + 1 := Nat.exists_eq_add_of_lt (show 0 < n by omega) |>.imp
      fun k hk => by omega
    exact .lose x (ih hmade (by omega))
  | cons_cons x hsub ih =>
    cases hmade with
    | cons made hmade =>
      rw [List.length_cons, List.length_cons] at hlost
      exact .pass made (ih hmade (by omega))

theorem of_map {δ : Type} {f : δ → α} {ds : List δ} (h : Lossy R n (ds.map f) ys) :
    Lossy (fun d y => R (f d) y) n ds ys := by
  induction ds generalizing n ys with
  | nil =>
    cases h
    exact .pending []
  | cons d ds ih =>
    cases h with
    | pending => exact .pending _
    | pass made rest => exact .pass made (ih rest)
    | lose _ rest => exact .lose d (ih rest)

theorem of_forall₂ (h : List.Forall₂ R xs ys) : Lossy R n xs ys :=
  of_sublist (List.Sublist.refl xs) h (Nat.le_add_right _ n)

/-- The losses come first, then what is made of the rest. -/
theorem exists_kept (h : Lossy R n xs ys) : ∃ kept, Lossy Eq n xs kept ∧ List.Forall₂ R kept ys := by
  induction h with
  | pending xs => exact ⟨[], .pending xs, .nil⟩
  | pass made rest ih =>
    obtain ⟨kept, hkept, hall⟩ := ih
    exact ⟨_, .pass rfl hkept, .cons made hall⟩
  | lose x rest ih =>
    obtain ⟨kept, hkept, hall⟩ := ih
    exact ⟨kept, .lose x hkept, hall⟩

/-- One transmission behind the other. -/
theorem comp (h : Lossy R n xs ys) (h' : Lossy S m ys zs) :
    Lossy (Relation.Comp R S) (n + m) xs zs := by
  induction h generalizing m zs with
  | pending xs =>
    cases h' with
    | pending => exact .pending xs
  | pass made rest ih =>
    cases h' with
    | pending => exact .pending _
    | pass made' rest' => exact .pass ⟨_, made, made'⟩ (ih rest')
    | lose y rest' => exact .lose _ (ih rest')
  | lose x rest ih =>
    rw [Nat.add_right_comm]
    exact .lose x (ih h')

theorem length_le (h : Lossy R n xs ys) : ys.length ≤ xs.length := by
  induction h with
  | pending xs => exact Nat.zero_le _
  | pass made rest ih => exact Nat.succ_le_succ ih
  | lose x rest ih => exact Nat.le_succ_of_le ih

/-- As much came out as went in. -/
theorem all_of_length (h : Lossy R n xs ys) (hlen : xs.length = ys.length) :
    List.Forall₂ R xs ys := by
  induction h with
  | pending xs =>
    rw [List.eq_nil_of_length_eq_zero hlen]
    exact .nil
  | pass made rest ih => exact .cons made (ih (Nat.succ.inj hlen))
  | lose x rest ih =>
    have hle := rest.length_le
    rw [List.length_cons] at hlen
    omega

/-- What is said of every input can be said of the output. -/
theorem forall_output {P : α → Prop} {Q : β → Prop} (h : Lossy R n xs ys) (hxs : ∀ x ∈ xs, P x)
    (himp : ∀ x y, P x → R x y → Q y) : ∀ y ∈ ys, Q y := by
  induction h with
  | pending xs => nofun
  | pass made rest ih =>
    rw [List.forall_mem_cons] at hxs ⊢
    exact ⟨himp _ _ hxs.1 made, ih hxs.2⟩
  | lose x rest ih => exact ih (List.forall_mem_cons.mp hxs).2

/-- Which of the inputs are kept, when there is one more in front. -/
def keepCons (first : Bool) (keep : Nat → Bool) : Nat → Bool
  | 0 => first
  | k + 1 => keep k

theorem filter_keepCons (first : Bool) (keep : Nat → Bool) (x : α) (xs : List α) :
    (((x :: xs).zipIdx.filter fun y => keepCons first keep y.2).map Prod.fst) =
      (if first then [x] else []) ++ (xs.zipIdx.filter fun y => keep y.2).map Prod.fst := by
  have hrest : (xs.zipIdx 1).filter (fun y => keepCons first keep y.2) =
      (xs.zipIdx.filter fun y => keep y.2).map fun y => (y.1, y.2 + 1) := by
    rw [List.zipIdx_succ, List.filter_map]
    rfl
  rw [List.zipIdx_cons, List.filter_cons, hrest]
  cases first with
  | false => simp [keepCons]
  | true => simp [keepCons]

/-- The inputs that are not lost, by their numbers; at most `n` in a row are lost before one
    that is not. -/
theorem exists_keep (h : Lossy R n xs ys) : ∃ keep : Nat → Bool,
    List.Forall₂ R ((xs.zipIdx.filter fun x => keep x.2).map Prod.fst) ys ∧
      ∀ i j, i ≤ j → keep j = true → (∀ k, i ≤ k → k < j → keep k = false) → j - i ≤ n := by
  induction h with
  | pending xs =>
    refine ⟨fun _ => false, ?_, nofun⟩
    rw [List.filter_eq_nil_iff.mpr (by simp), List.map_nil]
    exact .nil
  | pass made rest ih =>
    obtain ⟨keep, hall, hgap⟩ := ih
    refine ⟨keepCons true keep, ?_, fun i j hij hj hlost => ?_⟩
    · rw [filter_keepCons]
      exact .cons made hall
    · match i, j with
      | 0, 0 => exact Nat.zero_le _
      | 0, j + 1 => cases hlost 0 (Nat.le_refl 0) (Nat.succ_pos j)
      | i + 1, j + 1 =>
        have hle := hgap i j (Nat.le_of_succ_le_succ hij) hj fun k hk hk' =>
          hlost (k + 1) (Nat.succ_le_succ hk) (Nat.succ_lt_succ hk')
        omega
  | lose x rest ih =>
    obtain ⟨keep, hall, hgap⟩ := ih
    refine ⟨keepCons false keep, ?_, fun i j hij hj hlost => ?_⟩
    · rw [filter_keepCons]
      exact hall
    · match i, j with
      | 0, 0 => cases hj
      | 0, j + 1 =>
        have hle := hgap 0 j (Nat.zero_le j) hj fun k hk hk' =>
          hlost (k + 1) (Nat.zero_le _) (Nat.succ_lt_succ hk')
        omega
      | i + 1, j + 1 =>
        have hle := hgap i j (Nat.le_of_succ_le_succ hij) hj fun k hk hk' =>
          hlost (k + 1) (Nat.succ_le_succ hk) (Nat.succ_lt_succ hk')
        omega

end Lossy
