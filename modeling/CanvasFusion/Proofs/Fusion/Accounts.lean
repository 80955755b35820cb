import CanvasFusion.Proofs.Fusion.Emitting

/-!
# The accounts of emission

Emission brings each input of an operation into the form that is needed. Forms are kept in tables,
so a tensor is tiled, de-fused or masked once, however many operations read it, and each table has
its counter.

What a step does to the tables is said by the tensors it *needs* in some form (`Needs`): afterwards
the tables have these and what they had before (`Supplies`). Needs of steps in a row are joined, so
the needs of an operation are those of its inputs, with its output if that leaves the graph
(`demand`).
-/

namespace CanvasFusion

open List Context

/-! ## Counted ledgers -/

namespace Ledger

variable {κ ν : Type} [DecidableEq κ] {l : Ledger κ ν} {k : κ} {v : ν} {n : Nat}

/-- The keys of a ledger, in the order in which they were first recorded. -/
def keys (l : Ledger κ ν) : List κ := l.entries.map Prod.fst

theorem mem_keys : k ∈ l.keys ↔ l.get? k ≠ none := by
  unfold keys get?
  induction l.entries with
  | nil => simp [lookup]
  | cons e es ih =>
    obtain ⟨k', v⟩ := e
    by_cases hk : k' = k
    · simp [lookup, hk]
    · simp only [map_cons, mem_cons, ih, lookup, hk, Ne.symm hk, if_false, false_or]

/-- A new key comes last. -/
theorem keys_record (hnew : l.get? k = none) : (l.record k v).keys = l.keys ++ [k] := by
  have hput : ∀ es : List (κ × ν), lookup k es = none → put k v es = es ++ [(k, v)] := by
    intro es
    induction es with
    | nil => exact fun _ => rfl
    | cons e es ih =>
      intro h
      rw [lookup] at h
      split_ifs at h with hk
      rw [put, if_neg hk, ih h]
      rfl
  rw [keys, record, hput l.entries hnew, map_append]
  rfl

/-- A ledger has each of its keys once, and `n` of them. -/
structure Counted (l : Ledger κ ν) (n : Nat) : Prop where
  nodup : l.keys.Nodup
  count : n = l.keys.length

theorem Counted.record (h : l.Counted n) (hnew : l.get? k = none) :
    (l.record k v).Counted (n + 1) := by
  rw [← not_not (a := l.get? k = none), ← ne_eq, ← mem_keys] at hnew
  have hkeys := keys_record (v := v) (not_not.1 (mt mem_keys.2 hnew))
  refine ⟨?_, ?_⟩
  · grind [nodup]
  · rw [hkeys, length_append, ← h.count]
    rfl

theorem Counted.eq_zero (h : l.Counted n) (hnone : ∀ k, l.get? k = none) : n = 0 := by
  rw [h.count, length_eq_zero_iff, eq_nil_iff_forall_not_mem]
  exact fun k hk => mem_keys.1 hk (hnone k)

end Ledger

/-! ## Needs -/

namespace Context

variable {ctx ctx' ctx'' : Context} {t x : TensorId} {plan : FusedPlan} {β : Type}

/-- The operations that make the tiled form of a tensor. -/
def tilingOps (ctx : Context) (t : TensorId) : Nat :=
  ((ctx.canvasOf t).tiling (ctx.mapOf t) (ctx.channelsOf t)).length

/-- The operations that have been counted: those of the working copy, the product of each mask, the
slices and the concatenation of each de-fused form, and those of the tiled forms. -/
def countedOps (ctx : Context) : Nat :=
  ctx.counters.fusedOps + ctx.counters.batchedOps + ctx.counters.masks +
    ctx.counters.defuseAdapters * (ctx.grid.count + 1) + (ctx.tiled.keys.map ctx.tilingOps).sum

/-- The counters of adapters count the entries of their tables, and every operation of the fused
graph has been counted. -/
structure Tallied (ctx : Context) : Prop where
  tiled : ctx.tiled.Counted ctx.counters.tileAdapters
  defused : ctx.defused.Counted ctx.counters.defuseAdapters
  masked : ctx.masked.Counted ctx.counters.masks
  ops : ctx.fused.ops.size = ctx.countedOps

/-- The tensors for which a step needs an adapter, by its kind. -/
structure Needs where
  tiled : TensorId → Prop
  defused : TensorId → Prop
  masked : TensorId → Prop

namespace Needs

/-- Nothing is needed. -/
def none : Needs := ⟨fun _ => False, fun _ => False, fun _ => False⟩

/-- What either of two steps needs. -/
def or (n n' : Needs) : Needs :=
  ⟨fun t => n.tiled t ∨ n'.tiled t, fun t => n.defused t ∨ n'.defused t,
    fun t => n.masked t ∨ n'.masked t⟩

/-- What any step of a loop needs. -/
def any {β : Type} (bs : List β) (n : β → Needs) : Needs :=
  ⟨fun t => ∃ b ∈ bs, (n b).tiled t, fun t => ∃ b ∈ bs, (n b).defused t,
    fun t => ∃ b ∈ bs, (n b).masked t⟩

def tile (t : TensorId) : Needs := ⟨(· = t), fun _ => False, fun _ => False⟩

def defuse (t : TensorId) : Needs := ⟨fun _ => False, (· = t), fun _ => False⟩

def mask (t : TensorId) : Needs := ⟨fun _ => False, fun _ => False, (· = t)⟩

theorem any_nil (n : β → Needs) : any [] n = none := by
  simp [any, none]

theorem any_snoc (bs : List β) (b : β) (n : β → Needs) :
    any (bs ++ [b]) n = (any bs n).or (n b) := by
  simp [any, or, or_and_right, exists_or]

theorem any_congr {bs : List β} {n n' : β → Needs} (h : ∀ b ∈ bs, n b = n' b) :
    any bs n = any bs n' := by
  unfold any
  congr 1
  · exact funext fun t => propext (exists_congr fun b => and_congr_right fun hb => by rw [h b hb])
  · exact funext fun t => propext (exists_congr fun b => and_congr_right fun hb => by rw [h b hb])
  · grind

end Needs

/-- The adapters that are needed are there, and no other is new. -/
structure Supplies (n : Needs) (outs : List TensorId) (ctx ctx' : Context) : Prop where
  continues : ctx.fused.Continues outs ctx'.fused
  tiled : ∀ t, ctx'.tiled.get? t ≠ none ↔ ctx.tiled.get? t ≠ none ∨ n.tiled t
  defused : ∀ t, ctx'.defused.get? t ≠ none ↔ ctx.defused.get? t ≠ none ∨ n.defused t
  masked : ∀ t, ctx'.masked.get? t ≠ none ↔ ctx.masked.get? t ≠ none ∨ n.masked t
  tallied : ctx.Tallied → ctx'.Tallied

namespace Supplies

variable {n n' : Needs} {outs outs' : List TensorId}

/-- An adapter that is there already need not be built. -/
theorem of_known (htiled : ∀ u, n.tiled u → ctx.tiled.get? u ≠ none)
    (hdefused : ∀ u, n.defused u → ctx.defused.get? u ≠ none)
    (hmasked : ∀ u, n.masked u → ctx.masked.get? u ≠ none) : Supplies n [] ctx ctx :=
  ⟨.refl _, fun u => (or_iff_left_of_imp (htiled u)).symm,
    fun u => (or_iff_left_of_imp (hdefused u)).symm, fun u => (or_iff_left_of_imp (hmasked u)).symm,
    id⟩

theorem refl (ctx : Context) : Supplies .none [] ctx ctx :=
  of_known (fun _ => False.elim) (fun _ => False.elim) fun _ => False.elim

theorem trans (h : Supplies n outs ctx ctx') (h' : Supplies n' outs' ctx' ctx'') :
    Supplies (n.or n') (outs ++ outs') ctx ctx'' where
  continues := h.continues.trans h'.continues
  tiled t := by rw [h'.tiled, h.tiled, or_assoc]; rfl
  defused t := by rw [h'.defused, h.defused, or_assoc]; rfl
  masked t := by rw [h'.masked, h.masked, or_assoc]; rfl
  tallied hc := h'.tallied (h.tallied hc)

/-- A step that makes no adapter. -/
theorem step (h : Supplies n outs ctx ctx') (hc : ctx'.fused.Continues outs' ctx''.fused)
    (htiled : ctx''.tiled = ctx'.tiled) (hdefused : ctx''.defused = ctx'.defused)
    (hmasked : ctx''.masked = ctx'.masked)
    (htallied : ctx'.Tallied → ctx''.Tallied) : Supplies n (outs ++ outs') ctx ctx'' where
  continues := h.continues.trans hc
  tiled := htiled ▸ h.tiled
  defused := hdefused ▸ h.defused
  masked := hmasked ▸ h.masked
  tallied ht := htallied (h.tallied ht)

end Supplies

/-! ## What operations need -/

/-- What an input in batched form needs. -/
def batchedNeeds (ctx : Context) (x : TensorId) : Needs :=
  if ctx.isCanvas x then .defuse x else .none

/-- What an input at a place needs, for an operation on the canvas. -/
def operandNeeds (ctx : Context) (plan : FusedPlan) (p : TensorId × Nat) : Needs :=
  if p.2 ∈ plan.gapped then
    if ctx.isCanvas p.1 then if ctx.needsMask plan p.1 = .ok true then .mask p.1 else .none
    else .tile p.1
  else ctx.batchedNeeds p.1

/-- What an operation on the canvas needs. An output of the graph is de-fused at once. -/
def fusedNeeds (ctx : Context) (op : Operation) (plan : FusedPlan) (role : Role) : Needs :=
  (Needs.any op.inputs.zipIdx (ctx.operandNeeds plan)).or
    (if role = .output then .defuse op.output else .none)

/-- The role that the batched form of a tensor gets. -/
def roleOf (ctx : Context) (t : TensorId) : Role :=
  if t ∈ ctx.cloned.outputs then .output else .transient

theorem roleOf_eq_output : ctx.roleOf t = .output ↔ t ∈ ctx.cloned.outputs := by
  grind [roleOf]

/-- What an operation needs, by its plan. -/
def demand (ctx : Context) (o : OpId) : Needs :=
  match ctx.cloned.ops.get? o, ctx.plans.get? o with
  | some op, some .batched => .any op.inputs ctx.batchedNeeds
  | some op, some (.fused plan) => ctx.fusedNeeds op plan (ctx.roleOf op.output)
  | _, _ => .none

/-- Whether an operation is planned on the canvas. -/
def isFused (ctx : Context) (o : OpId) : Bool := (ctx.plans.get? o).any fun p => p ≠ .batched

theorem batchedNeeds_defused : (ctx.batchedNeeds x).defused t ↔ t = x ∧ ctx.isCanvas x = true := by
  grind [batchedNeeds, Needs.defuse, Needs.none]

theorem batchedNeeds_other : ¬ (ctx.batchedNeeds x).tiled t ∧ ¬ (ctx.batchedNeeds x).masked t := by
  grind [batchedNeeds, Needs.defuse, Needs.none]

/-! ## Needs stay as they are -/

section Grow

variable (h : Grown ctx ctx')

include h

theorem Grown.batchedNeeds : ctx'.batchedNeeds = ctx.batchedNeeds :=
  congr_core Context.batchedNeeds h.core fun _ => rfl

theorem Grown.needsMask (hx : ctx.isCanvas x = true → ctx.fills.get? x ≠ none) :
    ctx'.needsMask plan x = ctx.needsMask plan x := by
  have hgap : ctx'.gap = ctx.gap := congr_core gap h.core fun _ => rfl
  unfold Context.needsMask
  rw [h.isCanvas, hgap, h.grid, h.limit]
  cases hcanvas : ctx.isCanvas x with
  | false => rfl
  | true =>
    obtain ⟨v, hv⟩ := Option.ne_none_iff_exists'.1 (hx hcanvas)
    rw [fill, fill, hv, h.fills hv]

theorem Grown.operandNeeds {p : TensorId × Nat}
    (hx : ctx.isCanvas p.1 = true → ctx.fills.get? p.1 ≠ none) :
    ctx'.operandNeeds plan p = ctx.operandNeeds plan p := by
  rw [Context.operandNeeds, Context.operandNeeds, h.needsMask hx, h.batchedNeeds, h.isCanvas]

/-- An operation needs the same once its inputs are there. -/
theorem Grown.demand {o : OpId} {op : Operation} (hop : ctx.cloned.ops.get? o = some op)
    (hin : ∀ x ∈ op.inputs, ctx.isCanvas x = true → ctx.fills.get? x ≠ none) :
    ctx'.demand o = ctx.demand o := by
  have hplans : ctx'.plans = ctx.plans := congr_core plans h.core fun _ => rfl
  unfold Context.demand
  rw [h.cloned, hplans, hop]
  rcases ctx.plans.get? o with _ | _ | plan
  · rfl
  · rw [h.batchedNeeds]
  · show ctx'.fusedNeeds op plan (ctx'.roleOf op.output) =
      ctx.fusedNeeds op plan (ctx.roleOf op.output)
    have hrole : ctx'.roleOf op.output = ctx.roleOf op.output := by rw [roleOf, roleOf, h.cloned]
    have hany : Needs.any op.inputs.zipIdx (ctx'.operandNeeds plan) =
        Needs.any op.inputs.zipIdx (ctx.operandNeeds plan) :=
      Needs.any_congr fun p hp => h.operandNeeds
        (hin p.1 (mem_of_getElem? (mem_zipIdx_iff_getElem?.1 hp)))
    rw [fusedNeeds, fusedNeeds, hany, hrole]

end Grow

end Context

end CanvasFusion
