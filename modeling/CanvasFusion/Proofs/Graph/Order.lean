import CanvasFusion.Proofs.Graph.Building

/-!
# Dependency order

**Theorem (order_ok).** On a well-formed graph the dependency order exists. It lists operations at
most once, each after the operations that write its inputs, and it lists every operation whose
writers are all listed.

An operation waits for as many input places as are written by operations that are not listed yet
(`waiting`). The schedule keeps these numbers, and the operations that wait for nothing are exactly
those queued or listed (`Progress`).
-/

namespace CanvasFusion.Graph

variable {g : Graph} {o id : OpId} {op writer : Operation} {t : TensorId}
  {listed rest queue : List OpId} {s : Schedule}

/-- Whether an operation that is not listed yet writes the tensor. -/
def isAwaited (g : Graph) (listed : List OpId) (t : TensorId) : Bool :=
  (g.producer t).any fun p => !listed.contains p

/-- How many input places wait for an operation that is not listed yet. -/
def waiting (g : Graph) (listed : List OpId) (op : Operation) : Nat :=
  op.inputs.countP (g.isAwaited listed)

theorem waiting_nil : g.waiting [] op = g.pendingInputs op := by
  rw [waiting, pendingInputs, List.countP_eq_length_filter]
  refine congrArg List.length (List.filter_congr fun t _ => ?_)
  unfold isAwaited
  cases g.producer t <;> rfl

theorem waiting_eq_zero :
    g.waiting listed op = 0 ↔ ∀ t ∈ op.inputs, ∀ p, g.producer t = some p → p ∈ listed := by
  rw [waiting, List.countP_eq_zero]
  refine forall₂_congr fun t _ => ?_
  unfold isAwaited
  cases g.producer t <;> simp

/-- When an operation is listed, its readers wait for its output no longer. -/
theorem WellFormed.waiting_cons (hg : WellFormed g) (hid : g.ops.get? id = some writer)
    (hnew : id ∉ listed)
    {inputs : List TensorId} (hknown : ∀ t ∈ inputs, ∃ x, g.tensors.get? t = some x) :
    inputs.countP (g.isAwaited listed) =
      inputs.countP (g.isAwaited (id :: listed)) + inputs.count writer.output := by
  induction inputs with
  | nil => rfl
  | cons t rest ih =>
    obtain ⟨x, hx⟩ := hknown t List.mem_cons_self
    have hwrites : g.producer t = some id ↔ t = writer.output := by
      constructor
      · intro h
        obtain ⟨op, hop, hout⟩ := (hg.producer_iff hx).1 ((producer_eq hx).symm.trans h)
        rw [← hout, Option.some.inj (hop.symm.trans hid)]
      · rintro rfl
        exact hg.producer_output hid
    rw [List.countP_cons, List.countP_cons, List.count_cons,
      ih fun t' ht' => hknown t' (List.mem_cons_of_mem t ht')]
    by_cases ht : t = writer.output
    · have hbefore : g.isAwaited listed t = true := by simp [isAwaited, hwrites.2 ht, hnew]
      have hafter : g.isAwaited (id :: listed) t = false := by simp [isAwaited, hwrites.2 ht]
      grind
    · have hsame : g.isAwaited (id :: listed) t = g.isAwaited listed t := by
        unfold isAwaited
        cases hp : g.producer t with
        | none => rfl
        | some p => grind
      grind

/-! ## One step -/

/-- What holds between two steps. -/
structure Progress (g : Graph) (s : Schedule) (listed : List OpId) : Prop where
  /-- Every operation waits for its writers that are not listed yet. -/
  pending : ∀ {o op}, g.ops.get? o = some op → s.pending[o.index]? = some (g.waiting listed op)
  nodup : (s.queue ++ listed).Nodup
  /-- The operations queued or listed are those that wait for nothing. -/
  ready_iff : ∀ {o}, o ∈ s.queue ++ listed ↔ ∃ op, g.ops.get? o = some op ∧ g.waiting listed op = 0

/-- What holds while the readers of a listed operation are released: those in `rest` still wait as
before. -/
structure Releasing (g : Graph) (listed : List OpId) (id : OpId) (rest : List OpId) (s : Schedule) :
    Prop where
  before : ∀ {o op}, g.ops.get? o = some op → o ∈ rest →
    s.pending[o.index]? = some (g.waiting listed op)
  after : ∀ {o op}, g.ops.get? o = some op → o ∉ rest →
    s.pending[o.index]? = some (g.waiting (id :: listed) op)
  nodup : (s.queue ++ id :: listed).Nodup
  ready_iff : ∀ {o}, o ∈ s.queue ++ id :: listed ↔
    ∃ op, g.ops.get? o = some op ∧ s.pending[o.index]? = some 0

theorem Releasing.release {reader : OpId} (h : Releasing g listed id (reader :: rest) s)
    (hnot : reader ∉ rest) (hop : g.ops.get? reader = some op)
    (hreads : 0 < op.inputs.count writer.output)
    (hcount : g.waiting listed op = g.waiting (id :: listed) op + op.inputs.count writer.output) :
    ∃ s', g.release writer.output s reader = .ok s' ∧ Releasing g listed id rest s' := by
  have hwait := h.before hop List.mem_cons_self
  obtain ⟨hbound, -⟩ := List.getElem?_eq_some_iff.1 hwait
  have hle : op.inputs.count writer.output ≤ g.waiting listed op := by omega
  have hless : g.waiting listed op - op.inputs.count writer.output =
      g.waiting (id :: listed) op := by omega
  -- The reader still waited, so it was not in the queue.
  have hout : reader ∉ s.queue ++ id :: listed := fun hmem => by
    grind [ready_iff]
  have hentry : ∀ {o : OpId}, o ≠ reader →
      (s.pending.set reader.index (g.waiting (id :: listed) op))[o.index]? =
      s.pending[o.index]? := by
    intro o hne
    rw [List.getElem?_set_ne fun heq => hne ?_]
    obtain ⟨i⟩ := o
    obtain ⟨j⟩ := reader
    exact congrArg Handle.mk heq.symm
  have hset : (s.pending.set reader.index (g.waiting (id :: listed) op))[reader.index]? =
      some (g.waiting (id :: listed) op) := List.getElem?_set_self hbound
  refine ⟨⟨s.pending.set reader.index (g.waiting (id :: listed) op),
    if g.waiting (id :: listed) op = 0 then s.queue ++ [reader] else s.queue⟩, ?_, ?_, ?_, ?_, ?_⟩
  · unfold Graph.release
    rw [Table.get_eq_ok.2 hop, bind_ok, entry_eq_ok.2 hwait, bind_ok, Size.sub, if_pos hle, bind_ok,
      replace_ok hbound, bind_ok, hless]
    rfl
  · intro o op' ho hmem
    have hne : o ≠ reader := fun heq => hnot (heq ▸ hmem)
    exact (hentry hne).trans (h.before ho (List.mem_cons_of_mem reader hmem))
  · intro o op' ho hmem
    by_cases hne : o = reader
    · grind
    · exact (hentry hne).trans (h.after ho fun hc => hmem ((List.mem_cons.1 hc).resolve_left hne))
  · split_ifs
    · have hperm : ((s.queue ++ [reader]) ++ id :: listed).Perm
          (reader :: (s.queue ++ id :: listed)) := by
        grind
      exact hperm.nodup_iff.2 (List.nodup_cons.2 ⟨hout, h.nodup⟩)
    · exact h.nodup
  · intro o
    by_cases hne : o = reader
    · grind
    · simp only [hentry hne, ← h.ready_iff]
      grind

/-- The readers of a listed operation are released one after the other. -/
theorem WellFormed.release_all (hg : WellFormed g) {pending : List Nat}
    (hid : g.ops.get? id = some writer) (h : Progress g ⟨pending, id :: queue⟩ listed) :
    ∃ s, (g.consumers writer.output).foldlM (g.release writer.output) ⟨pending, queue⟩ = .ok s ∧
      Progress g s (id :: listed) := by
  obtain ⟨x, hx⟩ := hg.output_known hid
  have hnodup : (id :: (queue ++ listed)).Nodup := h.nodup
  have hnew : id ∉ listed := fun hmem =>
    (List.nodup_cons.1 hnodup).1 (List.mem_append_right queue hmem)
  have hcount : ∀ {o op}, g.ops.get? o = some op →
      g.waiting listed op = g.waiting (id :: listed) op + op.inputs.count writer.output :=
    fun ho => hg.waiting_cons hid hnew fun t ht => hg.input_known ho ht
  have hreads : ∀ {o op}, g.ops.get? o = some op →
      (o ∈ g.consumers writer.output ↔ 0 < op.inputs.count writer.output) := by
    grind [mem_consumers_iff]
  have hreaders : (g.consumers writer.output).Nodup := by
    rw [mem_consumers hx]
    exact (hg.consumers_sorted hx).imp fun hlt heq => absurd hlt (by grind)
  have hloop : ∀ rest s, rest ⊆ g.consumers writer.output → rest.Nodup →
      Releasing g listed id rest s →
      ∃ s', rest.foldlM (g.release writer.output) s = .ok s' ∧ Releasing g listed id [] s' := by
    intro rest
    induction rest with
    | nil => exact fun s _ _ hs => ⟨s, rfl, hs⟩
    | cons reader rest ih =>
      intro s hsub hnodup hs
      have hmem := hsub List.mem_cons_self
      grind [bind_ok, mem_consumers_iff, Releasing.release]
  obtain ⟨s, hs, hend⟩ := hloop _ ⟨pending, queue⟩ (List.Subset.refl _) hreaders
    { before := fun ho _ => h.pending ho
      after := fun {o op} ho hnot => by
        rw [hreads ho] at hnot
        rw [h.pending ho, hcount ho, Nat.eq_zero_of_not_pos hnot, Nat.add_zero]
      nodup := List.nodup_middle.2 hnodup
      ready_iff := fun {o} => by
        have hmem : o ∈ queue ++ id :: listed ↔ o ∈ (id :: queue) ++ listed := by grind
        rw [hmem, h.ready_iff]
        refine exists_congr fun op => and_congr_right fun ho => ?_
        rw [h.pending ho, Option.some.injEq] }
  refine ⟨s, hs, fun ho => hend.after ho List.not_mem_nil, hend.nodup, fun {o} => ?_⟩
  rw [hend.ready_iff]
  refine exists_congr fun op => and_congr_right fun ho => ?_
  rw [hend.after ho List.not_mem_nil, Option.some.injEq]

/-! ## The whole order -/

/-- The operations of a list stand behind the operations that write their inputs, and the list has
everything that stands behind listed operations only. -/
structure IsOrder (g : Graph) (l : List OpId) : Prop where
  nodup : l.Nodup
  known : ∀ {o}, o ∈ l → ∃ op, g.ops.get? o = some op
  writers_before : ∀ {done rest o op}, l = done ++ o :: rest → g.ops.get? o = some op →
    ∀ t ∈ op.inputs, ∀ p, g.producer t = some p → p ∈ done
  closed : ∀ {o op}, g.ops.get? o = some op →
    (∀ t ∈ op.inputs, ∀ p, g.producer t = some p → p ∈ l) → o ∈ l

/-- Operations listed last first, each behind the writers of its inputs. -/
def Behind (g : Graph) (listed : List OpId) : Prop :=
  ∀ {o after before op}, listed = after ++ o :: before → g.ops.get? o = some op →
    g.waiting before op = 0

theorem Progress.isOrder (h : Progress g s listed) (hqueue : s.queue = [])
    (hbehind : g.Behind listed) : IsOrder g listed.reverse where
  nodup := by
    have hn := h.nodup
    grind
  known ho := by
    obtain ⟨op, hop, -⟩ := h.ready_iff.1 (List.mem_append_right _ (List.mem_reverse.1 ho))
    exact ⟨op, hop⟩
  writers_before {done rest o op} hl hop t ht p hp := by
    have hlisted : listed = rest.reverse ++ o :: done.reverse := by grind
    exact List.mem_reverse.1 (waiting_eq_zero.1 (hbehind hlisted hop) t ht p hp)
  closed {o op} hop hall := by
    have hzero : g.waiting listed op = 0 :=
      waiting_eq_zero.2 fun t ht p hp => List.mem_reverse.1 (hall t ht p hp)
    have hmem := h.ready_iff.2 ⟨op, hop, hzero⟩
    grind

/-- A graph has no more operations queued and listed than it has. -/
theorem Progress.length_le (h : Progress g s listed) :
    s.queue.length + listed.length ≤ g.ops.size := by
  have hsub : s.queue ++ listed ⊆ g.ops.handles := fun o ho => by
    grind [Table.mem_handles, Table.lt_of_get?, ready_iff]
  have hle := (List.subperm_of_subset h.nodup hsub).length_le
  rwa [List.length_append, Table.length_handles] at hle

/-- Any number of steps is enough that is not below the number of operations left. -/
theorem WellFormed.schedule_ok (hg : WellFormed g) (steps : Nat) :
    ∀ {s listed}, Progress g s listed → g.Behind listed → g.ops.size ≤ steps + listed.length →
      ∃ l, g.schedule steps s listed = .ok l ∧ IsOrder g l := by
  induction steps with
  | zero =>
    rintro ⟨pending, queue⟩ listed h hbehind hsteps
    have hle := h.length_le
    obtain rfl : queue = [] := List.eq_nil_of_length_eq_zero (by grind)
    exact ⟨_, rfl, h.isOrder rfl hbehind⟩
  | succ steps ih =>
    rintro ⟨pending, queue⟩ listed h hbehind hsteps
    cases queue with
    | nil => exact ⟨_, rfl, h.isOrder rfl hbehind⟩
    | cons id queue =>
      obtain ⟨writer, hid, hzero⟩ := h.ready_iff.1 (List.mem_cons_self (l := queue ++ listed))
      obtain ⟨s, hs, hnext⟩ := hg.release_all hid h
      have hbehind' : g.Behind (id :: listed) := by
        intro o after before op hlisted hop
        cases after with
        | nil => grind
        | cons a after => exact hbehind (List.cons.inj hlisted).2 hop
      obtain ⟨l, hl, horder⟩ := ih hnext hbehind' (by rw [List.length_cons]; omega)
      refine ⟨l, ?_, horder⟩
      change (g.ops.get id >>= fun op => _) = _
      rw [Table.get_eq_ok.2 hid, bind_ok, hs, bind_ok, hl]

/-- The operations that wait for nothing at the start. -/
theorem mem_initialQueue {f : OpId × Nat → Option OpId}
    (hsome : ∀ {e o}, f e = some o ↔ e = (o, 0)) :
    let queue := (g.ops.handles.zip (g.ops.toList.map g.pendingInputs)).filterMap f
    queue.Nodup ∧ ∀ o, o ∈ queue ↔ ∃ op, g.ops.get? o = some op ∧ g.pendingInputs op = 0 := by
  have hzip : g.ops.handles.zip (g.ops.toList.map g.pendingInputs) =
      g.ops.entries.map (Prod.map (fun o => o) g.pendingInputs) := by
    rw [Table.entries, List.zip_map_right]
    rfl
  rw [hzip]
  refine ⟨List.Nodup.filterMap (fun e e' o he he' => ?_) (List.Nodup.of_map Prod.fst ?_),
    fun o => ?_⟩
  · rw [hsome.1 he, hsome.1 he']
  · rw [List.map_map]
    exact (Table.map_fst_entries g.ops).symm ▸ Table.nodup_handles g.ops
  · simp only [List.mem_filterMap, List.mem_map, hsome, exists_eq_right]
    constructor
    · grind [Table.mem_entries]
    · rintro ⟨op, hop, hzero⟩
      exact ⟨(o, op), Table.mem_entries.2 hop, Prod.ext rfl hzero⟩

/-- **A well-formed graph has a dependency order.** -/
theorem WellFormed.order_ok (hg : WellFormed g) : ∃ l, g.order = .ok l ∧ IsOrder g l := by
  have hpending : ∀ {o op}, g.ops.get? o = some op →
      (g.ops.toList.map g.pendingInputs)[o.index]? = some (g.pendingInputs op) := by
    intro o op ho
    rw [List.getElem?_map, Table.getElem?_toList, ho]
    rfl
  unfold order
  have hqueue := mem_initialQueue (g := g) (f := fun e => if e.2 = 0 then some e.1 else none)
    fun {e o} => by
      grind
  refine hg.schedule_ok g.ops.size ⟨fun ho => ?_, ?_, fun {o} => ?_⟩ (fun h => ?_) (Nat.le_refl _)
  · rw [waiting_nil]
    exact hpending ho
  · grind
  · grind [waiting_nil]
  · cases (List.append_eq_nil_iff.1 h.symm).2

end CanvasFusion.Graph
