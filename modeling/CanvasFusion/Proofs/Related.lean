import Mathlib.Data.List.Forall2
import Mathlib.Data.Option.Defs
import Mathlib.Data.List.Nodup
import Mathlib.Data.List.Perm.Subperm
import CanvasFusion.Proofs.Outcome

/-!
# Related lists

Two lists are related entry by entry (`List.Forall₂`). A function that looks at the entries one
after the other gives the same for both, if it gives the same for related entries.
-/

namespace CanvasFusion

open List Size

section Lists

variable {α β γ : Type} {R : α → β → Prop} {xs : List α} {ys : List β}

section

variable (h : List.Forall₂ R xs ys) {p : α → Bool} {q : β → Bool}

include h

theorem forall₂_mem : List.Forall₂ (fun x y => x ∈ xs ∧ y ∈ ys ∧ R x y) xs ys := by
  rw [forall₂_iff_zip] at h ⊢
  exact ⟨h.1, fun hmem => ⟨(of_mem_zip hmem).1, (of_mem_zip hmem).2, h.2 hmem⟩⟩

theorem forall₂_getElem? {i : Nat} {x : α} (hx : xs[i]? = some x) :
    ∃ y, ys[i]? = some y ∧ R x y := by
  obtain ⟨hi, rfl⟩ := List.getElem?_eq_some_iff.1 hx
  have hi' : i < ys.length := h.length_eq ▸ hi
  exact ⟨_, getElem?_eq_getElem hi', h.get hi hi'⟩

theorem forall₂_left_mem {x : α} (hx : x ∈ xs) : ∃ y ∈ ys, R x y := by
  obtain ⟨i, hi⟩ := mem_iff_getElem?.1 hx
  obtain ⟨y, hy, hxy⟩ := forall₂_getElem? h hi
  exact ⟨y, mem_of_getElem? hy, hxy⟩

theorem forall₂_right_mem {y : β} (hy : y ∈ ys) : ∃ x ∈ xs, R x y :=
  forall₂_left_mem h.flip hy

/-- Related entries, each with its place. -/
theorem forall₂_zipIdx (k : Nat) :
    List.Forall₂ (fun p q => R p.1 q.1 ∧ p.2 = q.2) (xs.zipIdx k) (ys.zipIdx k) := by
  induction h generalizing k with
  | nil => exact .nil
  | cons hxy _ ih => exact .cons ⟨hxy, rfl⟩ (ih (k + 1))

theorem forall₂_comp {S : β → γ → Prop} {T : α → γ → Prop} {zs : List γ} (h' : List.Forall₂ S ys zs)
    (hT : ∀ {x y z}, R x y → S y z → T x z) : List.Forall₂ T xs zs := by
  induction h generalizing zs with
  | nil =>
    cases h'
    exact .nil
  | cons hxy _ ih =>
    cases h' with
    | cons hyz h' => exact .cons (hT hxy hyz) (ih h')

/-! ## Repetitions -/

/-- Entries that belong to the same entry of a list without repetitions are the same. -/
theorem forall₂_injective (hR : ∀ {x y y'}, R x y → R x y' → y = y') (hys : ys.Nodup)
    {x x' : α} {y : β} (hx : x ∈ xs) (hx' : x' ∈ xs) (hxy : R x y) (hxy' : R x' y) : x = x' := by
  obtain ⟨i, hi, rfl⟩ := getElem_of_mem hx
  obtain ⟨j, hj, rfl⟩ := getElem_of_mem hx'
  have hi' : i < ys.length := h.length_eq ▸ hi
  have hj' : j < ys.length := h.length_eq ▸ hj
  have hsame : ys[i] = ys[j] := (hR (h.get hi hi') hxy).trans (hR (h.get hj hj') hxy').symm
  have hij : i = j := (hys.getElem_inj_iff).1 hsame
  subst hij
  rfl

/-- What belongs to a list without repetitions, entry by entry, has none either. -/
theorem nodup_of_forall₂ (hR : ∀ {x y y'}, R x y → R x y' → y = y') (hys : ys.Nodup) :
    xs.Nodup := by
  induction h with
  | nil => exact nodup_nil
  | @cons x y xs ys hxy hrest ih =>
    obtain ⟨hy, hys⟩ := nodup_cons.1 hys
    refine nodup_cons.2 ⟨fun hx => ?_, ih hys⟩
    obtain ⟨y', hy', hxy'⟩ := forall₂_left_mem hrest hx
    exact hy (hR hxy hxy' ▸ hy')

/-! ## Functions of the entries -/

/-- Maps of two lists agree if they agree on related entries. -/
theorem map_eq_map_of_forall₂ {f : α → γ} {f' : β → γ}
    (hf : ∀ x y, x ∈ xs → y ∈ ys → R x y → f x = f' y) : xs.map f = ys.map f' := by
  rw [← forall₂_eq_eq_eq, forall₂_map_left_iff, forall₂_map_right_iff]
  exact (forall₂_mem h).imp fun x y hxy => hf x y hxy.1 hxy.2.1 hxy.2.2

theorem any_eq_any (hpq : ∀ x y, R x y → p x = q y) : xs.any p = ys.any q := by
  induction h with
  | nil => rfl
  | cons hxy _ ih => rw [any_cons, any_cons, hpq _ _ hxy, ih]

theorem findSome?_eq_findSome? {f : α → Option γ} {f' : β → Option γ}
    (hf : ∀ x y, R x y → f x = f' y) : xs.findSome? f = ys.findSome? f' := by
  induction h with
  | nil => rfl
  | cons hxy _ ih => rw [findSome?_cons, findSome?_cons, hf _ _ hxy, ih]

/-- Searching related lists finds related entries, or none in both. -/
theorem find?_rel_find? (hpq : ∀ x y, R x y → p x = q y) :
    Option.Rel R (xs.find? p) (ys.find? q) := by
  induction h with
  | nil => exact .none
  | @cons x y xs ys hxy _ ih =>
    rw [find?_cons, find?_cons, hpq x y hxy]
    cases q y with
    | true => exact .some hxy
    | false => exact ih

theorem mapM_eq_mapM {ε : Type} {f : α → Except ε γ} {f' : β → Except ε γ}
    (hf : ∀ x y, R x y → f x = f' y) : xs.mapM f = ys.mapM f' := by
  induction h with
  | nil => rfl
  | cons hxy _ ih => rw [mapM_cons, mapM_cons, hf _ _ hxy, ih]

/-- The entries at a place are related, or the lists are both too short. -/
theorem entry_rel_entry (i : Nat) :
    (∃ x y, entry xs i = .ok x ∧ entry ys i = .ok y ∧ R x y) ∨
      ∃ e, entry xs i = .error e ∧ entry ys i = .error e := by
  cases hx : xs[i]? with
  | some x =>
    obtain ⟨y, hy, hxy⟩ := forall₂_getElem? h hx
    exact .inl ⟨x, y, entry_eq_ok.2 hx, entry_eq_ok.2 hy, hxy⟩
  | none =>
    have hy : ys[i]? = none := by
      rw [getElem?_eq_none_iff, ← h.length_eq]
      exact getElem?_eq_none_iff.1 hx
    exact .inr ⟨.outOfRange, by rw [entry, hx], by rw [entry, hy]⟩

/-- Going on from an entry, related lists give the same. -/
theorem entry_bind_eq {f : α → Except Fault γ} {f' : β → Except Fault γ} {i : Nat}
    (hf : ∀ x y, R x y → f x = f' y) : entry xs i >>= f = entry ys i >>= f' := by
  rcases entry_rel_entry h i with ⟨x, y, hx, hy, hxy⟩ | ⟨e, hx, hy⟩
  · rw [hx, hy]
    exact hf x y hxy
  · rw [hx, hy]
    rfl

end

/-! ## Lengths -/

/-- There are at least as many partners as entries, if no two entries have one in common. -/
theorem length_le_of_related (hxs : xs.Nodup) (hR : ∀ {x x' y}, R x y → R x' y → x = x')
    (h : ∀ x ∈ xs, ∃ y ∈ ys, R x y) : xs.length ≤ ys.length := by
  rcases xs with _ | ⟨x, xs⟩
  · exact Nat.zero_le _
  · obtain ⟨y, -⟩ := h x mem_cons_self
    have : Nonempty β := ⟨y⟩
    choose! f hmem hf using h
    rw [← length_map f]
    refine (List.Nodup.subperm (List.Nodup.map_on (fun a ha b hb hab => ?_) hxs) ?_).length_le
    · exact hR (hf a ha) (hab ▸ hf b hb)
    · grind

/-- Lists whose entries correspond one to one are of the same length, whatever their order. -/
theorem length_eq_of_related (hxs : xs.Nodup) (hys : ys.Nodup)
    (hR : ∀ {x y x' y'}, R x y → R x' y' → (x = x' ↔ y = y')) (hleft : ∀ x ∈ xs, ∃ y ∈ ys, R x y)
    (hright : ∀ y ∈ ys, ∃ x ∈ xs, R x y) : xs.length = ys.length :=
  Nat.le_antisymm (length_le_of_related (R := R) hxs (fun h h' => (hR h h').2 rfl) hleft)
    (length_le_of_related (R := fun y x => R x y) hys (fun h h' => (hR h h').1 rfl) hright)

end Lists

end CanvasFusion
