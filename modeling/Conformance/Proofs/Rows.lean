import Mathlib.Data.List.Forall2

/-!
# Rows in step

Two rows that are related element by element, and what is known of them from
their elements.
-/

namespace Conformance

variable {α β γ : Type} {R : α → β → Prop} {xs : List α} {ys : List β}

/-- A relation between rows, with what is known of the elements at each position. -/
theorem forall₂_imp_of_getElem? {S : α → β → Prop} (h : List.Forall₂ R xs ys)
    (himp : ∀ (i : Nat) (x : α) (y : β), xs[i]? = some x → ys[i]? = some y → R x y → S x y) :
    List.Forall₂ S xs ys := by
  induction h with
  | nil => exact .nil
  | cons hxy _ ih =>
    exact .cons (himp 0 _ _ rfl rfl hxy) (ih fun i x y hx hy => himp (i + 1) x y hx hy)

/-- A relation between rows, with what is known of their elements. -/
theorem forall₂_imp_of_mem {S : α → β → Prop} (h : List.Forall₂ R xs ys)
    (himp : ∀ x ∈ xs, ∀ y ∈ ys, R x y → S x y) : List.Forall₂ S xs ys :=
  forall₂_imp_of_getElem? h fun _ x y hx hy =>
    himp x (List.mem_of_getElem? hx) y (List.mem_of_getElem? hy)

/-- At every position of a row a related one has a counterpart. -/
theorem exists_of_forall₂_of_getElem? {i : Nat} {x : α} (h : List.Forall₂ R xs ys)
    (hx : xs[i]? = some x) : ∃ y, ys[i]? = some y ∧ R x y := by
  induction h generalizing i with
  | nil => cases hx
  | cons hxy _ ih =>
    cases i with
    | zero =>
      cases hx
      exact ⟨_, rfl, hxy⟩
    | succ i => exact ih hx

/-- Every element of a row has its counterpart in a related one. -/
theorem exists_of_forall₂_of_mem {x : α} (h : List.Forall₂ R xs ys) (hx : x ∈ xs) :
    ∃ y ∈ ys, R x y := by
  obtain ⟨i, hi⟩ := List.mem_iff_getElem?.mp hx
  obtain ⟨y, hy, hr⟩ := exists_of_forall₂_of_getElem? h hi
  exact ⟨y, List.mem_of_getElem? hy, hr⟩

/-- Rows that are related to the same row are related to each other. -/
theorem forall₂_trans_of_mem {S : β → γ → Prop} {T : α → γ → Prop} {zs : List γ}
    (h : List.Forall₂ R xs ys) (hs : List.Forall₂ S ys zs)
    (htrans : ∀ x ∈ xs, ∀ y ∈ ys, ∀ z ∈ zs, R x y → S y z → T x z) : List.Forall₂ T xs zs := by
  induction h generalizing zs with
  | nil =>
    cases hs
    exact .nil
  | cons hxy _ ih =>
    cases hs with
    | cons hyz hs =>
      refine .cons (htrans _ List.mem_cons_self _ List.mem_cons_self _ List.mem_cons_self hxy hyz)
        (ih hs fun x hx y hy z hz => ?_)
      exact htrans x (List.mem_cons_of_mem _ hx) y (List.mem_cons_of_mem _ hy) z
        (List.mem_cons_of_mem _ hz)

/-- If related elements have something between them, so do the rows. -/
theorem exists_between_of_forall₂ {P : α → γ → Prop} {Q : γ → β → Prop}
    (h : List.Forall₂ (fun x y => ∃ z, P x z ∧ Q z y) xs ys) :
    ∃ zs, List.Forall₂ P xs zs ∧ List.Forall₂ Q zs ys := by
  induction h with
  | nil => exact ⟨[], .nil, .nil⟩
  | cons hxy _ ih =>
    obtain ⟨z, hp, hq⟩ := hxy
    obtain ⟨zs, hps, hqs⟩ := ih
    exact ⟨z :: zs, .cons hp hps, .cons hq hqs⟩

/-- A row of things that are all there is the row of the things. -/
theorem eq_map_some_of_forall₂ {found : List (Option α)}
    (h : List.Forall₂ (fun x o => o = some x) xs found) : found = xs.map some := by
  induction h with
  | nil => rfl
  | cons hx _ ih => rw [hx, ih, List.map_cons]

/-- What every element of a row has, the row has in a row. -/
theorem exists_forall₂_of_forall_mem (h : ∀ x ∈ xs, ∃ y, R x y) :
    ∃ ys, List.Forall₂ R xs ys := by
  induction xs with
  | nil => exact ⟨[], .nil⟩
  | cons x rest ih =>
    obtain ⟨hx, hrest⟩ := List.forall_mem_cons.mp h
    obtain ⟨y, hy⟩ := hx
    obtain ⟨ys, hys⟩ := ih hrest
    exact ⟨y :: ys, .cons hy hys⟩

/-- What is related to something is something. -/
theorem rel_some_left {x : α} {found : Option β} (h : Option.Rel R (some x) found) :
    ∃ y, found = some y ∧ R x y := by
  cases h with
  | some hxy => exact ⟨_, rfl, hxy⟩

/-- What is related to nothing is nothing. -/
theorem rel_none_left {found : Option β} (h : Option.Rel R none found) : found = none := by
  cases h
  rfl

end Conformance
