import CanvasFusion.Proofs.Eval.Index
import CanvasFusion.Proofs.Fusion.Placement

/-!
# Indices by role

The axes of a rank-4 tensor have roles: batch, channel, and the two dimensions of the canvas. An
axis map says which axis has which role. `arrange` puts four numbers at the axes of their roles, so
shapes and indices can be written by role whatever the order of the axes is.
-/

namespace CanvasFusion

open Shape

namespace Pair

variable {α : Type}

/-- The pair with the entry of one dimension replaced. -/
def set (p : Pair α) (d : Dim) (a : α) : Pair α := .ofFn fun e => if e = d then a else p.get e

@[simp] theorem set_get (p : Pair α) (d e : Dim) (a : α) :
    (p.set d a).get e = if e = d then a else p.get e := ofFn_get _ e

end Pair

namespace AxisMap

variable {m : AxisMap} {n n' c c' N C : Nat} {y y' S : Pair Nat} {s : Shape}

/-- The entry for an axis, by its role. -/
def coordinate (m : AxisMap) (n c : Nat) (y : Pair Nat) (axis : Nat) : Nat :=
  if axis = m.batch then n
  else if axis = m.channel then c
  else if axis = m.fuse.first then y.first
  else y.second

/-- The list of four with each entry at the axis of its role. -/
def arrange (m : AxisMap) (n c : Nat) (y : Pair Nat) : List Nat :=
  (List.range 4).map (m.coordinate n c y)

@[simp] theorem length_arrange : (m.arrange n c y).length = 4 := by simp [arrange]

theorem extent_arrange {i : Nat} (hi : i < 4) :
    extent (m.arrange n c y) i = m.coordinate n c y i := by
  refine extent_eq ?_
  rw [arrange, List.getElem?_map, List.getElem?_range hi]
  rfl

section

variable (hm : m.Valid)

include hm

@[simp] theorem arrange_batch : extent (m.arrange n c y) m.batch = n := by
  rw [extent_arrange hm.batch_lt, coordinate, if_pos rfl]

@[simp] theorem arrange_channel : extent (m.arrange n c y) m.channel = c := by
  rw [extent_arrange hm.channel_lt, coordinate, if_neg hm.batch_ne_channel.symm, if_pos rfl]

@[simp] theorem arrange_fuse (d : Dim) : extent (m.arrange n c y) (m.fuse.get d) = y.get d := by
  rw [extent_arrange (hm.fuse_lt d), coordinate, if_neg (hm.batch_ne_fuse d).symm,
    if_neg (hm.channel_ne_fuse d).symm]
  cases d with
  | first => exact if_pos rfl
  | second => exact if_neg hm.fuse_ne.symm

/-- Lists of four are equal if they agree at every role. -/
theorem ext_roles {l l' : List Nat} (hl : l.length = 4) (hl' : l'.length = 4)
    (hb : extent l m.batch = extent l' m.batch) (hc : extent l m.channel = extent l' m.channel)
    (hf : ∀ d, extent l (m.fuse.get d) = extent l' (m.fuse.get d)) : l = l' := by
  refine ext_extent (hl.trans hl'.symm) fun i hi => ?_
  rcases hm.axis_cases (hl ▸ hi) with rfl | rfl | ⟨d, rfl⟩
  · exact hb
  · exact hc
  · exact hf d

/-- Every list of four is arranged. -/
theorem eq_arrange (hs : s.length = 4) :
    s = m.arrange (s.extent m.batch) (s.extent m.channel)
      (.ofFn fun d => s.extent (m.fuse.get d)) := by
  grind [ext_roles, length_arrange, arrange_batch, arrange_channel, arrange_fuse, Pair.ofFn_get]

theorem set_batch : (m.arrange n c y).set m.batch n' = m.arrange n' c y := by
  have hlt : m.batch < (m.arrange n c y).length := by rw [length_arrange]; exact hm.batch_lt
  refine ext_roles hm (by simp) length_arrange ?_ ?_ fun d => ?_
  · rw [extent_set_self hlt, arrange_batch hm]
  · rw [extent_set_ne hm.batch_ne_channel, arrange_channel hm, arrange_channel hm]
  · rw [extent_set_ne (hm.batch_ne_fuse d), arrange_fuse hm, arrange_fuse hm]

theorem set_channel : (m.arrange n c y).set m.channel c' = m.arrange n c' y := by
  have hlt : m.channel < (m.arrange n c y).length := by rw [length_arrange]; exact hm.channel_lt
  refine ext_roles hm (by simp) length_arrange ?_ ?_ fun d => ?_
  · rw [extent_set_ne hm.batch_ne_channel.symm, arrange_batch hm, arrange_batch hm]
  · rw [extent_set_self hlt, arrange_channel hm]
  · rw [extent_set_ne (hm.channel_ne_fuse d), arrange_fuse hm, arrange_fuse hm]

theorem fuse_inj {d e : Dim} (h : m.fuse.get d = m.fuse.get e) : d = e := by
  cases d <;> cases e
  · rfl
  · exact absurd h hm.fuse_ne
  · exact absurd h hm.fuse_ne.symm
  · rfl

theorem set_fuse (d : Dim) (a : Nat) :
    (m.arrange n c y).set (m.fuse.get d) a = m.arrange n c (y.set d a) := by
  have hlt : m.fuse.get d < (m.arrange n c y).length := by rw [length_arrange]; exact hm.fuse_lt d
  refine ext_roles hm (by simp) length_arrange ?_ ?_ fun e => ?_
  · rw [extent_set_ne (hm.batch_ne_fuse d).symm, arrange_batch hm, arrange_batch hm]
  · rw [extent_set_ne (hm.channel_ne_fuse d).symm, arrange_channel hm, arrange_channel hm]
  · rw [arrange_fuse hm, Pair.set_get, extent_set hlt]
    split_ifs with h₁ h₂ h₂
    · rfl
    · exact absurd (fuse_inj hm h₁).symm h₂
    · exact absurd (congrArg m.fuse.get h₂.symm) h₁
    · exact arrange_fuse hm e

theorem within_arrange :
    Shape.Within (m.arrange N C S) (m.arrange n c y) ↔
      n < N ∧ c < C ∧ ∀ d, y.get d < S.get d := by
  rw [within_iff]
  simp only [length_arrange, true_and]
  constructor
  · intro h
    refine ⟨?_, ?_, fun d => ?_⟩
    · simpa only [arrange_batch hm] using h _ hm.batch_lt
    · simpa only [arrange_channel hm] using h _ hm.channel_lt
    · simpa only [arrange_fuse hm] using h _ (hm.fuse_lt d)
  · grind [arrange_batch, arrange_channel, arrange_fuse, Valid.axis_cases]

/-- Every index within an arranged shape is arranged. -/
theorem exists_arrange {index : Index} (h : Shape.Within (m.arrange N C S) index) :
    ∃ n c y, index = m.arrange n c y ∧ n < N ∧ c < C ∧ ∀ d, y.get d < S.get d := by
  have hlen : index.length = 4 := h.length_eq.trans length_arrange
  have heq := eq_arrange hm hlen
  grind [within_arrange]

theorem arrange_inj (h : m.arrange n c y = m.arrange n' c' y') : n = n' ∧ c = c' ∧ y = y' := by
  refine ⟨?_, ?_, Pair.ext_get fun d => ?_⟩
  · rw [← arrange_batch hm (n := n) (c := c) (y := y), h, arrange_batch hm]
  · rw [← arrange_channel hm (n := n) (c := c) (y := y), h, arrange_channel hm]
  · rw [← arrange_fuse hm (n := n) (c := c) (y := y) d, h, arrange_fuse hm]

end

/-- The roles of batch, channel, height and width in this order. -/
theorem arrange_nchw : nchw.arrange n c y = [n, c, y.first, y.second] := rfl

theorem valid_nchw : nchw.Valid := ⟨by decide, by decide⟩

end AxisMap

end CanvasFusion
