import CanvasFusion.Fusion.Planning
import CanvasFusion.Proofs.Graph.Building
import CanvasFusion.Proofs.Operator.Shapes

/-!
# What planning decides

Planning reads the shapes, placements and axis maps around one operation. On a sound state it always
comes to a decision, and a decision for the canvas has a meaning, `PlanFor`: which inputs share the
canvas, with which axis map, and which gap rules apply. The rules come from windows that fit, and
they are identities along a dimension with one tile.
-/

namespace CanvasFusion

open Shape List Pair Operator

namespace Context

variable {ctx : Context} {op : Operation} {o : OpId} {t x : TensorId} {map : AxisMap}
  {plan : FusedPlan}

/-! ## Sound states -/

/-- The parts of a state that stay fixed after cloning. -/
structure Base (ctx : Context) : Prop where
  limit : ctx.limit = .unbounded
  wellFormed : ctx.cloned.WellFormed
  sequential : ctx.cloned.Sequential
  axes : ctx.axes.Valid
  tiles_pos : ∀ d, 0 < ctx.grid.tiles.get d
  count_eq : ctx.grid.tiles.first * ctx.grid.tiles.second = ctx.grid.count

/-- Axis maps belong to tensors of rank 4, and a canvas tensor has all samples of the grid. -/
structure Placed (ctx : Context) : Prop where
  valid : ∀ {t map}, ctx.axisMaps.get? t = some map → map.Valid
  rank : ∀ {t map}, ctx.axisMaps.get? t = some map → (ctx.cloned.shapeOf t).length = 4
  canvas : ∀ {t}, ctx.isCanvas t = true → ∃ map, ctx.axisMaps.get? t = some map ∧
    (ctx.cloned.shapeOf t).extent map.batch = ctx.grid.count

/-- The tensor is on a canvas with this axis map, or can be tiled onto one. -/
structure Fits (ctx : Context) (t : TensorId) (map : AxisMap) : Prop where
  axisMap : ctx.axisMaps.get? t = some map
  placed : ctx.isCanvas t = true ∨ ctx.placements.get? t = some .batched
  batch : (ctx.cloned.shapeOf t).extent map.batch = ctx.grid.count

theorem known_of_rank (h : (ctx.cloned.shapeOf t).length = 4) :
    ∃ x, ctx.cloned.tensors.get? t = some x := by
  cases hx : ctx.cloned.tensors.get? t with
  | none => simp [Graph.shapeOf, hx] at h
  | some x => exact ⟨x, rfl⟩

theorem Placed.shape_ok (hp : ctx.Placed) (h : ctx.axisMaps.get? t = some map) :
    ctx.cloned.shape t = .ok (ctx.cloned.shapeOf t) := by
  grind [known_of_rank, Graph.shape_ok, rank]

theorem Placed.entry_ok (hp : ctx.Placed) (h : ctx.axisMaps.get? t = some map) {i : Nat}
    (hi : i < 4) : Size.entry (ctx.cloned.shapeOf t) i = .ok ((ctx.cloned.shapeOf t).extent i) :=
  Shape.entry_ok (by rw [hp.rank h]; exact hi)

theorem isSampleInvariant_ok (hmap : map.Valid) (s : Shape) :
    ∃ b, map.isSampleInvariant s = .ok b := by
  unfold AxisMap.isSampleInvariant
  split_ifs with hr
  · exact ⟨_, rfl⟩
  refine (foldlM_invariant (fun _ _ => True) trivial fun k axis ok haxis _ => ?_).imp
    fun _ => And.left
  have hlt : axis < 4 := by
    have hmem := mem_of_getElem? haxis
    simp only [mem_cons, not_mem_nil, or_false] at hmem
    rcases hmem with rfl | rfl | rfl
    · exact hmap.batch_lt
    · exact hmap.fuse_lt .first
    · exact hmap.fuse_lt .second
  split_ifs with hok hoff
  · exact ⟨_, rfl, trivial⟩
  · exact ⟨_, rfl, trivial⟩
  · rw [entry_ok (by unfold rank at hr hoff ⊢; omega)]
    exact ⟨_, rfl, trivial⟩

theorem fitsCanvas_spec (hp : ctx.Placed) (t : TensorId) :
    ∃ b, ctx.fitsCanvas t = .ok b ∧
      (b = true → ∀ map, ctx.axisMaps.get? t = some map → ctx.Fits t map) := by
  unfold fitsCanvas
  by_cases hc : ctx.isCanvas t = true
  · refine ⟨true, by rw [if_pos hc], fun _ map hmap => ⟨hmap, .inl hc, ?_⟩⟩
    grind [Placed.canvas]
  · rw [if_neg hc]
    unfold isTileable
    split_ifs with hen
    · simp only [Bool.and_eq_true, decide_eq_true_eq] at hen
      split
      · rename_i hnone
        exact ⟨false, rfl, fun h => (by cases h)⟩
      · rename_i map hmap
        simp only [hp.shape_ok hmap, hp.entry_ok hmap (hp.valid hmap).batch_lt, bind_ok]
        refine ⟨_, rfl, fun hb map' hmap' => ?_⟩
        cases hmap.symm.trans hmap'
        exact ⟨hmap, .inr hen.2, of_decide_eq_true hb⟩
    · exact ⟨false, rfl, fun h => (by cases h)⟩

theorem canvasOperand_spec (hp : ctx.Placed) (t : TensorId) :
    ∃ r, ctx.canvasOperand t = .ok r ∧ ∀ map, r = some map → ctx.Fits t map := by
  obtain ⟨b, hb, hfits⟩ := fitsCanvas_spec hp t
  unfold canvasOperand
  rw [hb, bind_ok]
  cases b with
  | false => exact ⟨none, rfl, fun map h => (by cases h)⟩
  | true => exact ⟨_, rfl, fun map h => hfits rfl map h⟩

/-! ## The meaning of a plan -/

/-- The gap rules of a sliding window over the tensor `x`. -/
def WindowRules (ctx : Context) (op : Operation) (x : TensorId) (map : AxisMap) (order : Pair Dim)
    (kernel stride dilation : Pair Nat) (pad : Pair Padding) (rules : Pair GapRule) : Prop :=
  ∀ d, rules.get d =
    if ctx.grid.isTiled d then
      .window ⟨kernel.get (order.get d), stride.get (order.get d), dilation.get (order.get d),
        pad.get (order.get d), (ctx.cloned.shapeOf x).extent (map.fuse.get d),
        (ctx.cloned.shapeOf op.output).extent (map.fuse.get d)⟩
    else .identity

/-- A tensor that is the same for all samples and all cells of a channel. -/
def Broadcast (ctx : Context) (map : AxisMap) (t : TensorId) : Prop :=
  ctx.isCanvas t = false ∧ map.isSampleInvariant (ctx.cloned.shapeOf t) = .ok true

/-- What it means that planning puts an operation on the canvas. -/
def PlanFor (ctx : Context) (op : Operation) (plan : FusedPlan) : Prop :=
  match op.kind with
  | .conv2d p => ∃ x w rest map order, op.inputs = x :: w :: rest ∧
      (∀ t ∈ w :: rest, ctx.isCanvas t = false) ∧ ctx.Fits x map ∧
      map.spatialOrder p.layout = some order ∧ plan.gapped = [0] ∧
      ctx.WindowRules op x map order
        ⟨(ctx.cloned.shapeOf w).extent 2, (ctx.cloned.shapeOf w).extent 3⟩
        p.stride p.dilation p.pad plan.rules
  | .pool2d p => ∃ x map order, op.inputs = [x] ∧ p.pad = .both ⟨0, 0⟩ ∧ ctx.Fits x map ∧
      map.spatialOrder p.layout = some order ∧ plan.gapped = [0] ∧
      ctx.WindowRules op x map order p.kernel p.stride (.both 1) p.pad plan.rules
  | .pad p => ∃ x map, op.inputs = [x] ∧ p.value.isZero = true ∧ ctx.Fits x map ∧
      extent p.front map.batch = 0 ∧ extent p.back map.batch = 0 ∧
      plan.gapped = [0] ∧
      ∀ d, plan.rules.get d = if ctx.grid.isTiled d then
        .pad (extent p.front (map.fuse.get d) + extent p.back (map.fuse.get d))
        else .identity
  | .activation _ | .transpose _ => ∃ x, op.inputs = [x] ∧ ctx.isCanvas x = true ∧
      plan = .pointwise [0]
  | .reshape _ => ∃ x, op.inputs = [x] ∧ ctx.isCanvas x = true ∧
      ctx.cloned.shapeOf x = ctx.cloned.shapeOf op.output ∧ plan = .pointwise [0]
  | .binary kind => ∃ map, ctx.axisMaps.get? op.output = some map ∧ plan.rules = .both .identity ∧
      plan.gapped ≠ [] ∧ plan.gapped.Nodup ∧ (∀ i ∈ plan.gapped, i < op.inputs.length) ∧
      ¬ (kind = .div ∧ 1 ∈ plan.gapped) ∧
      ∀ i x, op.inputs[i]? = some x →
        if i ∈ plan.gapped then
          ctx.cloned.shapeOf x = ctx.cloned.shapeOf op.output ∧ ctx.Fits x map
        else ctx.Broadcast map x
  | .concat axis => ∃ map, ctx.axisMaps.get? op.output = some map ∧ axis = map.channel ∧
      plan = .pointwise (List.range op.inputs.length) ∧ ∀ x ∈ op.inputs, ctx.Fits x map
  | .reduce .. | .slice .. | .softmax _ => False

/-- A check comes to a decision, and a plan for the canvas satisfies `P`. -/
def Decides (x : Except Fault Decision) (P : FusedPlan → Prop) : Prop :=
  ∃ dec, x = .ok dec ∧ ∀ plan, dec = .fused plan → P plan

section Decides

variable {P : FusedPlan → Prop} {α : Type}

theorem Decides.batched : Decides (.ok .batched) P := ⟨_, rfl, fun _ h => (by cases h)⟩

theorem Decides.unbalanced (r : Imbalance) : Decides (.ok (.unbalanced r)) P :=
  ⟨_, rfl, fun _ h => (by cases h)⟩

theorem Decides.fused {plan : FusedPlan} (h : P plan) : Decides (.ok (.fused plan)) P :=
  ⟨_, rfl, fun _ h' => by cases h'; exact h⟩

theorem Decides.bind {x : Except Fault α} {f : α → Except Fault Decision} {a : α}
    (hx : x = .ok a) (hf : Decides (f a) P) : Decides (x >>= f) P := by
  rw [hx]
  exact hf

theorem Decides.ite {c : Prop} [Decidable c] {x y : Except Fault Decision}
    (hx : c → Decides x P) (hy : ¬ c → Decides y P) : Decides (if c then x else y) P := by
  split_ifs with hc
  · exact hx hc
  · exact hy hc

/-- There is a rule along each dimension with tiles. -/
theorem Decides.rules {f : Dim → Except Fault GapRule} {r : Dim → GapRule}
    {k : Pair GapRule → Except Fault Decision} (hf : ∀ d, f d = .ok (r d))
    (hk : ∀ rules : Pair GapRule,
      (∀ d, rules.get d = if ctx.grid.isTiled d then r d else .identity) → Decides (k rules) P) :
    Decides ((Pair.ofFnM fun d => if !ctx.grid.isTiled d then pure .identity else f d) >>= k)
    P := by
  refine .bind (a := .ofFn _) (ofFnM_eq_ok.2 fun d => ?_) (hk _ fun d => ofFn_get _ d)
  rw [Pair.ofFn_get, hf]
  cases ctx.grid.isTiled d <;> rfl

end Decides

/-! ## The operands of an operation -/

section Operands

variable (hb : ctx.Base) (hop : ctx.cloned.ops.get? o = some op)

include hb hop

theorem input_shape_ok (hx : x ∈ op.inputs) : ctx.cloned.shape x = .ok (ctx.cloned.shapeOf x) := by
  obtain ⟨y, hy⟩ := hb.wellFormed.input_known hop hx
  exact Graph.shape_ok hy

theorem output_shape_ok : ctx.cloned.shape op.output = .ok (ctx.cloned.shapeOf op.output) := by
  obtain ⟨y, hy⟩ := hb.wellFormed.output_known hop
  exact Graph.shape_ok hy

theorem conv_operands {p : Conv2d} (hk : op.kind = .conv2d p) :
    ∃ x w rest, op.inputs = x :: w :: rest ∧ rest.length ≤ 1 ∧
      Operator.ConvShape p (ctx.cloned.shapeOf x) (ctx.cloned.shapeOf w)
        (rest.head?.map ctx.cloned.shapeOf) (ctx.cloned.shapeOf op.output) := by
  have hs := hb.wellFormed.op_shape hop
  rw [hk] at hs
  obtain ⟨sx, sw, srest, hshapes, hlen, hconv⟩ := inferShape_conv hs
  obtain ⟨x, tail, hin, rfl, htail⟩ := map_eq_cons_iff.1 hshapes
  obtain ⟨w, rest, rfl, rfl, rfl⟩ := map_eq_cons_iff.1 htail
  refine ⟨x, w, rest, hin, by simpa using hlen, ?_⟩
  rw [← head?_map]
  exact hconv

theorem unary_operand (hk : op.kind.isUnary = true) : ∃ x, op.inputs = [x] := by
  obtain ⟨s, hs⟩ := inferShape_unary hk (hb.wellFormed.op_shape hop)
  grind [map_eq_singleton_iff]

theorem pool_shape {p : Pool2d} (hk : op.kind = .pool2d p) (hx : op.inputs = [x]) :
    Operator.PoolShape p (ctx.cloned.shapeOf x) (ctx.cloned.shapeOf op.output) := by
  have hs := hb.wellFormed.op_shape hop
  rw [hk, hx] at hs
  exact inferPool_eq_ok hs

theorem pad_shape {p : ConstantPad} (hk : op.kind = .pad p) (hx : op.inputs = [x]) :
    Operator.PadShape p (ctx.cloned.shapeOf x) (ctx.cloned.shapeOf op.output) := by
  have hs := hb.wellFormed.op_shape hop
  rw [hk, hx] at hs
  exact inferPad_eq_ok hs

end Operands

/-! ## Every plan function decides -/

theorem entry_zero {α : Type} {a : α} {as rest : List α} (h : as = a :: rest) :
    Size.entry as 0 = .ok a :=
  entry_eq_ok.2 (by rw [h]; rfl)

section Decisions

variable (hb : ctx.Base) (hp : ctx.Placed) (hop : ctx.cloned.ops.get? o = some op)

include hb hp hop

omit hp in
theorem Decides.windowRules {rest : List TensorId} {order : Pair Dim}
    {kernel stride dilation : Pair Nat} {pad : Pair Padding} {P : FusedPlan → Prop}
    {k : Pair GapRule → Except Fault Decision} (hin : op.inputs = x :: rest)
    (hmap : map.Valid) (hx : (ctx.cloned.shapeOf x).length = 4)
    (hout : (ctx.cloned.shapeOf op.output).length = 4)
    (hk : ∀ rules, ctx.WindowRules op x map order kernel stride dilation pad rules →
      Decides (k rules) P) :
    Decides (ctx.windowRules op map order kernel stride dilation pad >>= k) P := by
  have hxmem : x ∈ op.inputs := by rw [hin]; exact mem_cons_self
  unfold Context.windowRules
  rw [entry_zero hin, bind_ok, input_shape_ok hb hop hxmem, bind_ok,
    output_shape_ok hb hop, bind_ok]
  refine .rules (fun d => ?_) hk
  rw [entry_ok (hx ▸ hmap.fuse_lt d), bind_ok, entry_ok (hout ▸ hmap.fuse_lt d)]
  rfl

theorem planConv_decides {p : Conv2d} (hk : op.kind = .conv2d p) :
    Decides (ctx.planConv op p) (ctx.PlanFor op) := by
  obtain ⟨x, w, rest, hin, -, hshape⟩ := conv_operands hb hop hk
  have hw : ctx.cloned.shape w = .ok (ctx.cloned.shapeOf w) :=
    input_shape_ok hb hop (by rw [hin]; simp)
  have hlen : (ctx.cloned.shapeOf w).length = 4 := hshape.weight_rank
  have hout : (ctx.cloned.shapeOf op.output).length = 4 := by
    rw [hshape.slid.rank_eq, length_set, hshape.rank]
  obtain ⟨r, hr, hfits⟩ := canvasOperand_spec hp x
  unfold planConv
  refine .bind (entry_zero hin) ?_
  refine .ite (fun _ => .batched) fun hany => ?_
  refine .bind hr ?_
  rcases r with - | map
  · exact .batched
  have hfit := hfits map rfl
  dsimp only
  split
  · exact .batched
  refine .bind (entry_eq_ok.2 (by rw [hin]; rfl)) (.bind hw ?_)
  refine .bind (entry_ok (by omega)) (.bind (entry_ok (by omega)) ?_)
  refine .windowRules hb hop hin (hp.valid hfit.axisMap) hshape.rank hout fun rules hrules =>
    .fused ?_
  unfold PlanFor
  grind

theorem planPool_decides {p : Pool2d} (hk : op.kind = .pool2d p) :
    Decides (ctx.planPool op p) (ctx.PlanFor op) := by
  obtain ⟨x, hin⟩ := unary_operand hb hop (by rw [hk]; rfl)
  have hshape := pool_shape hb hop hk hin
  have hout : (ctx.cloned.shapeOf op.output).length = 4 := by rw [hshape.slid.rank_eq, hshape.rank]
  obtain ⟨r, hr, hfits⟩ := canvasOperand_spec hp x
  unfold planPool
  refine .ite (fun _ => .batched) fun hpad => ?_
  refine .bind (entry_zero hin) ?_
  refine .bind hr ?_
  rcases r with - | map
  · exact .batched
  have hfit := hfits map rfl
  dsimp only
  split
  · exact .batched
  refine .windowRules hb hop hin (hp.valid hfit.axisMap) hshape.rank hout fun rules hrules =>
    .fused ?_
  unfold PlanFor
  grind

theorem planPad_decides {p : ConstantPad} (hk : op.kind = .pad p) :
    Decides (ctx.planPad op p) (ctx.PlanFor op) := by
  obtain ⟨x, hin⟩ := unary_operand hb hop (by rw [hk]; rfl)
  have hshape := pad_shape hb hop hk hin
  obtain ⟨r, hr, hfits⟩ := canvasOperand_spec hp x
  unfold planPad
  refine .ite (fun _ => .batched) fun hzero => ?_
  refine .bind (entry_zero hin) ?_
  refine .bind hr ?_
  rcases r with - | map
  · exact .batched
  have hfit := hfits map rfl
  have hvalid := hp.valid hfit.axisMap
  have hrank := hp.rank hfit.axisMap
  have hf : p.front.length = 4 := hshape.front_rank.trans hrank
  have hbk : p.back.length = 4 := hshape.back_rank.trans hrank
  refine .bind (entry_ok (hf ▸ hvalid.batch_lt)) (.ite (fun _ => .batched) fun hfront => ?_)
  refine .bind (entry_ok (hbk ▸ hvalid.batch_lt)) (.ite (fun _ => .batched) fun hback => ?_)
  refine .rules
    (r := fun d => .pad (extent p.front (map.fuse.get d) + extent p.back (map.fuse.get d)))
    (fun d => ?_) fun rules hrules => .fused ?_
  · rw [entry_ok (hf ▸ hvalid.fuse_lt d), bind_ok, entry_ok (hbk ▸ hvalid.fuse_lt d),
      bind_ok, hb.limit]
    rfl
  · unfold PlanFor
    rw [hk]
    exact ⟨x, map, hin, by simpa using hzero, hfit, not_not.1 hfront, not_not.1 hback, rfl, hrules⟩

omit hp in
theorem planUnary_decides (hk : op.kind.isUnary = true)
    (hplan : ∀ x, op.inputs = [x] → ctx.isCanvas x = true → ctx.PlanFor op (.pointwise [0])) :
    Decides (ctx.planUnary op) (ctx.PlanFor op) := by
  obtain ⟨x, hin⟩ := unary_operand hb hop hk
  unfold planUnary
  refine .bind (entry_zero hin) ?_
  split_ifs with hc
  · exact .fused (hplan x hin hc)
  · exact .batched

omit hp in
theorem planReshape_decides {target : List Nat} (hk : op.kind = .reshape target) :
    Decides (ctx.planReshape op) (ctx.PlanFor op) := by
  obtain ⟨x, hin⟩ := unary_operand hb hop (by rw [hk]; rfl)
  have hx : ctx.cloned.shape x = .ok (ctx.cloned.shapeOf x) :=
    input_shape_ok hb hop (by rw [hin]; simp)
  unfold planReshape
  refine .bind (entry_zero hin) (.bind hx (.bind (output_shape_ok hb hop) ?_))
  refine .ite (fun hsame => ?_) fun _ => .batched
  refine planUnary_decides hb hop (by rw [hk]; rfl) fun y hy hc => ?_
  grind [PlanFor]

theorem operandFit_spec (hmap : map.Valid) (hx : x ∈ op.inputs) :
    ∃ f, ctx.operandFit map (ctx.cloned.shapeOf op.output) x = .ok f ∧
      (f = .canvas → ctx.cloned.shapeOf x = ctx.cloned.shapeOf op.output ∧ ctx.Fits x map) ∧
      (f = .broadcast → ctx.Broadcast map x) := by
  obtain ⟨b, hfits, hfit⟩ := fitsCanvas_spec hp x
  unfold operandFit
  simp only [input_shape_ok hb hop hx, hfits, bind_ok]
  split_ifs with hcanvas hc
  · exact ⟨_, rfl, fun _ => ⟨hcanvas.1, hfit hcanvas.2.2 map hcanvas.2.1⟩, fun h => (by cases h)⟩
  · exact ⟨_, rfl, fun h => (by cases h), fun h => (by cases h)⟩
  · obtain ⟨inv, hinv⟩ := isSampleInvariant_ok hmap (ctx.cloned.shapeOf x)
    rw [hinv, bind_ok]
    cases inv with
    | false => exact ⟨_, rfl, fun h => (by cases h), fun h => (by cases h)⟩
    | true => exact ⟨_, rfl, fun h => (by cases h), fun _ => ⟨by simpa using hc, hinv⟩⟩

theorem planBinary_decides {kind : BinaryKind} (hk : op.kind = .binary kind) :
    Decides (ctx.planBinary op kind) (ctx.PlanFor op) := by
  unfold planBinary
  refine .ite (fun _ => .batched) fun hany => ?_
  refine .bind (output_shape_ok hb hop) ?_
  split
  · exact .unbalanced _
  · rename_i map hmap
    have : Nonempty OperandFit := ⟨.misfit⟩
    choose! fit hfit using fun x (hx : x ∈ op.inputs) => operandFit_spec hb hp hop
      (hp.valid hmap) hx
    refine .bind (mapM_ok (g := fit) fun x hx => (hfit x hx).1) ?_
    split
    · rename_i i hi
      have hlt : i < op.inputs.length := by
        have h := (idxOf?_eq_some_iff.1 hi).1
        rwa [length_map] at h
      refine .bind (entry_eq_ok.2 (getElem?_eq_getElem hlt)) ?_
      exact .bind (input_shape_ok hb hop (getElem_mem hlt)) (.unbalanced _)
    · rename_i hnone
      have hnot : OperandFit.misfit ∉ op.inputs.map fit := idxOf?_eq_none_iff.1 hnone
      have hmem : ∀ i, i ∈ ((op.inputs.map fit).zipIdx.filter fun f => f.1 = .canvas).map (·.2) ↔
          (op.inputs.map fit)[i]? = some .canvas := by
        intro i
        simp only [mem_map, mem_filter, decide_eq_true_eq, Prod.exists,
          mem_zipIdx_iff_getElem?]
        grind
      refine .ite (fun _ => .batched) fun hdiv => .fused ?_
      unfold PlanFor
      rw [hk]
      refine ⟨map, hmap, rfl, ?_, ?_, ?_, hdiv, ?_⟩
      · -- Some operand is on a canvas, and it does not misfit.
        simp only [Bool.not_eq_true', Bool.not_eq_false, any_eq_true] at hany
        obtain ⟨x, hx, hc⟩ := hany
        obtain ⟨i, hi⟩ := mem_iff_getElem?.1 hx
        have hfx : fit x = .canvas := by
          have hne : fit x ≠ .misfit := fun h => hnot (h ▸ mem_map_of_mem hx)
          cases hf : fit x with
          | canvas => rfl
          | misfit => exact absurd hf hne
          | broadcast =>
            have hbc := ((hfit x hx).2.2 hf).1
            rw [hc] at hbc
            cases hbc
        refine ne_nil_of_mem ((hmem i).2 ?_)
        rw [getElem?_map, hi, Option.map_some, hfx]
      · refine (filter_sublist.map Prod.snd).nodup ?_
        rw [zipIdx_map_snd]
        exact nodup_range'
      · intro i hi
        have h := (List.getElem?_eq_some_iff.1 ((hmem i).1 hi)).1
        rwa [length_map] at h
      · intro i x hi
        have hx : x ∈ op.inputs := mem_iff_getElem?.2 ⟨i, hi⟩
        have hfi : (op.inputs.map fit)[i]? = some (fit x) := by
          rw [getElem?_map, hi, Option.map_some]
        by_cases hg : i ∈ ((op.inputs.map fit).zipIdx.filter fun f => f.1 = .canvas).map (·.2)
        · rw [FusedPlan.pointwise, if_pos hg]
          grind
        · rw [FusedPlan.pointwise, if_neg hg]
          rw [hmem, hfi] at hg
          have hne : fit x ≠ .misfit := fun h => hnot (h ▸ mem_map_of_mem hx)
          refine (hfit x hx).2.2 ?_
          cases hf : fit x with
          | canvas => exact absurd (congrArg some hf) hg
          | misfit => exact absurd hf hne
          | broadcast => rfl

omit hb hop in
theorem planConcat_decides {axis : Nat} (hk : op.kind = .concat axis) :
    Decides (ctx.planConcat op axis) (ctx.PlanFor op) := by
  unfold planConcat
  refine .ite (fun _ => .batched) fun _ => ?_
  split
  · exact .unbalanced _
  · rename_i map hmap
    refine .ite (fun _ => .unbalanced _) fun haxis => ?_
    choose b hb' hfit using fun x => fitsCanvas_spec hp x
    refine .bind (mapM_ok (g := fun x => b x && decide (ctx.axisMaps.get? x = some map))
      fun x _ => by rw [hb' x]; rfl) ?_
    split
    · exact .unbalanced _
    · rename_i hnone
      refine .fused ?_
      unfold PlanFor
      grind

/-- **Planning comes to a decision**, and a plan for the canvas has its meaning. -/
theorem decision_decides : Decides (ctx.decision op) (ctx.PlanFor op) := by
  unfold decision
  refine .ite (fun _ => .batched) fun _ => ?_
  cases hk : op.kind with
  | conv2d p => exact planConv_decides hb hp hop hk
  | pool2d p => exact planPool_decides hb hp hop hk
  | pad p => exact planPad_decides hb hp hop hk
  | activation | transpose =>
    refine planUnary_decides hb hop (by rw [hk]; rfl) fun x hin hc => ?_
    unfold PlanFor
    rw [hk]
    exact ⟨x, hin, hc, rfl⟩
  | binary kind => exact planBinary_decides hb hp hop hk
  | reshape target => exact planReshape_decides hb hop hk
  | concat axis => exact planConcat_decides hp hk
  | reduce | slice | softmax => exact .batched

end Decisions

/-! ## Rules -/

/-- What gap inference needs to know about a plan. -/
structure SoundPlan (ctx : Context) (op : Operation) (plan : FusedPlan) : Prop where
  gapped_ne : plan.gapped ≠ []
  gapped_lt : ∀ i ∈ plan.gapped, i < op.inputs.length
  valid : ∀ d, (plan.rules.get d).Valid
  untiled : ∀ d, ctx.grid.isTiled d = false → plan.rules.get d = .identity

theorem both_identity_get (d : Dim) : (both GapRule.identity).get d = .identity := by
  cases d <;> rfl

theorem SoundPlan.pointwise {gapped : List Nat} (hne : gapped ≠ [])
    (hlt : ∀ i ∈ gapped, i < op.inputs.length) : ctx.SoundPlan op (.pointwise gapped) where
  gapped_ne := hne
  gapped_lt := hlt
  valid d := by
    rw [FusedPlan.pointwise, both_identity_get]
    trivial
  untiled d _ := both_identity_get d

theorem WindowRules.sound {order : Pair Dim} {kernel stride dilation : Pair Nat}
    {pad : Pair Padding} {layout : Layout} {out : Shape}
    (horder : map.spatialOrder layout = some order)
    (hslid : Operator.Slid layout (ctx.cloned.shapeOf x) kernel stride dilation pad out
      (ctx.cloned.shapeOf op.output))
    (hrules : ctx.WindowRules op x map order kernel stride dilation pad plan.rules) :
    (∀ d, (plan.rules.get d).Valid) ∧
      ∀ d, ctx.grid.isTiled d = false → plan.rules.get d = .identity := by
  constructor
  · intro d
    rw [hrules d]
    split_ifs with ht
    · have hw := hslid.window (order.get d)
      rw [AxisMap.spatial_of_order horder] at hw
      exact hw
    · trivial
  · intro d ht
    rw [hrules d, ht]
    rfl

theorem PlanFor.sound (hb : ctx.Base) (hop : ctx.cloned.ops.get? o = some op)
    (h : ctx.PlanFor op plan) : ctx.SoundPlan op plan := by
  unfold PlanFor at h
  cases hk : op.kind with
  | conv2d p =>
    rw [hk] at h
    obtain ⟨x, w, rest, map, order, hin, -, -, horder, hg, hrules⟩ := h
    obtain ⟨x', w', rest', hin', -, hshape⟩ := conv_operands hb hop hk
    cases hin.symm.trans hin'
    obtain ⟨hvalid, huntiled⟩ := hrules.sound horder hshape.slid
    exact ⟨by rw [hg]; simp, by rw [hg, hin]; simp, hvalid, huntiled⟩
  | pool2d p =>
    rw [hk] at h
    obtain ⟨x, map, order, hin, -, -, horder, hg, hrules⟩ := h
    obtain ⟨hvalid, huntiled⟩ := hrules.sound horder (pool_shape hb hop hk hin).slid
    exact ⟨by rw [hg]; simp, by rw [hg, hin]; simp, hvalid, huntiled⟩
  | pad p =>
    rw [hk] at h
    obtain ⟨x, map, hin, -, -, -, -, hg, hrules⟩ := h
    refine ⟨by rw [hg]; simp, by rw [hg, hin]; simp, fun d => ?_, fun d ht => ?_⟩
    · rw [hrules d]
      split_ifs <;> trivial
    · rw [hrules d, ht]
      rfl
  | activation | transpose | reshape => grind [SoundPlan.pointwise]
  | binary kind =>
    rw [hk] at h
    obtain ⟨map, -, hrules, hne, -, hlt, -⟩ := h
    refine ⟨hne, hlt, fun d => ?_, fun d _ => ?_⟩
    · rw [hrules, both_identity_get]
      trivial
    · rw [hrules, both_identity_get]
  | concat axis =>
    rw [hk] at h
    obtain ⟨map, -, -, rfl, -⟩ := h
    refine .pointwise ?_ (by simp)
    have hne := hb.wellFormed.inputs_ne_nil hop
    simpa using hne
  | reduce | slice | softmax => rw [hk] at h; exact h.elim

end Context

end CanvasFusion
