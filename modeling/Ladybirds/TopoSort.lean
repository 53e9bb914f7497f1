import Mathlib.Data.Fintype.Card
import Ladybirds.BufferAllocation

/-! # Topological sorting of the task graph

`GetTopologicalOrder` schedules in rounds the tasks whose in-edge count is 0, and `ReorderNodes`
moves the nodes into a fresh `PresDeque` in that order. A task is its position in the node
sequence, its edges read off the edge list.
-/

namespace Ladybirds

open BufferAllocation (TaskGraph)

/-- `t.InEdgeCount()`. -/
def BufferAllocation.TaskGraph.inEdgeCount (g : TaskGraph) (t : Nat) : Nat :=
  g.edges.countP (·.2 = t)

/-- Every edge connects two nodes of the graph. -/
def BufferAllocation.TaskGraph.WellFormed (g : TaskGraph) : Prop :=
  ∀ e ∈ g.edges, e.1 < g.nodes ∧ e.2 < g.nodes

instance (g : TaskGraph) : Decidable g.WellFormed :=
  inferInstanceAs (Decidable (∀ e ∈ g.edges, e.1 < g.nodes ∧ e.2 < g.nodes))

namespace TaskTopoSort

/-- `inEdgeCounts` and `order` of `GetTopologicalOrder`. -/
structure TopoState where
  inEdgeCounts : List Int
  order : List Nat
  deriving DecidableEq, Repr

/-- The scan of a round: the tasks whose count is 0, in node order. -/
def candidates (g : TaskGraph) (counts : List Int) : List Nat :=
  (List.range g.nodes).filter fun t => counts.getD t 0 = 0

/-- One pass of the `do` loop: `cur` is appended and the target of each of its out-edges loses
one in-edge. -/
def schedule (g : TaskGraph) (st : TopoState) (cur : Nat) : TopoState :=
  ⟨(g.edges.filter (·.1 = cur)).foldl (fun c d => c.modify (· - 1) d.2) st.inEdgeCounts,
    st.order ++ [cur]⟩

/-- One round of the `while` loop. A round that queues nothing changes nothing, where the source
breaks out of the loop. -/
def round (g : TaskGraph) (st : TopoState) : TopoState :=
  let cands := candidates g st.inEdgeCounts
  cands.foldl (schedule g) ⟨cands.foldl (fun c t => c.set t (-1)) st.inEdgeCounts, st.order⟩

def initState (g : TaskGraph) : TopoState :=
  ⟨(List.range g.nodes).map fun t => (g.inEdgeCount t : Int), []⟩

/-- `GetTopologicalOrder`: `g.nodes + 1` rounds, after which no round queues anything
(`round_iterate_fixed`). -/
def getTopologicalOrder (g : TaskGraph) : Bool × List Nat :=
  let st := (round g)^[g.nodes + 1] (initState g)
  (st.order.length == g.nodes, st.order)

section Counts

variable (g : TaskGraph)

/-- The in-edges of `t` whose source is not in `done`. -/
def pending (done : List Nat) (t : Nat) : Nat :=
  g.edges.countP fun e => e.2 = t ∧ e.1 ∉ done

/-- The counts while the tasks `done` are scheduled and the tasks `marked` queued. -/
def expected (done marked : List Nat) : List Int :=
  (List.range g.nodes).map fun t => if t ∈ done ∨ t ∈ marked then -1 else (pending g done t : Int)

variable {g}

theorem getElem?_expected (done marked : List Nat) (t : Nat) :
    (expected g done marked)[t]? =
      if t < g.nodes then some (if t ∈ done ∨ t ∈ marked then -1 else (pending g done t : Int))
      else none := by
  simp only [expected, List.getElem?_map]
  by_cases h : t < g.nodes
  · simp only [List.getElem?_range h, if_pos h, Option.map_some']
  · have hnone : (List.range g.nodes)[t]? = none := List.getElem?_eq_none (by simpa using h)
    simp only [hnone, if_neg h, Option.map_none']

@[simp] theorem length_expected (done marked : List Nat) :
    (expected g done marked).length = g.nodes := by
  simp [expected]

theorem getD_expected (done marked : List Nat) {t : Nat} (ht : t < g.nodes) :
    (expected g done marked).getD t 0 =
      if t ∈ done ∨ t ∈ marked then -1 else (pending g done t : Int) := by
  rw [List.getD_eq_getElem?_getD, getElem?_expected, if_pos ht]; rfl

theorem initState_eq : (initState g).inEdgeCounts = expected g [] [] := by
  simp [initState, expected, pending, TaskGraph.inEdgeCount]

theorem foldl_set_expected (done : List Nat) :
    ∀ (cands marked : List Nat),
      cands.foldl (fun c t => c.set t (-1)) (expected g done marked) =
        expected g done (marked ++ cands)
  | [], marked => by simp
  | t :: cands, marked => by
    have hset : (expected g done marked).set t (-1) = expected g done (marked ++ [t]) := by
      refine List.ext_getElem? fun i => ?_
      rw [List.getElem?_set, getElem?_expected, getElem?_expected]
      by_cases hi : t = i
      · subst hi; simp
      · simp [hi, Ne.symm hi]
    rw [List.foldl_cons, hset, foldl_set_expected done cands, List.append_assoc, List.singleton_append]

theorem expected_of_subset {done marked : List Nat} (h : ∀ t ∈ marked, t ∈ done) :
    expected g done marked = expected g done [] := by
  simp only [expected, List.not_mem_nil, or_false]
  exact List.map_congr_left fun t _ => by simp only [or_iff_left_of_imp (h t)]

end Counts

theorem getElem?_foldl_modify (es : List (Nat × Nat)) (l : List Int) (i : Nat) :
    (es.foldl (fun c d => c.modify (· - 1) d.2) l)[i]? =
      (fun x => x - (es.countP (·.2 = i) : Int)) <$> l[i]? := by
  induction es generalizing l with
  | nil => simp
  | cons d es ih =>
    rw [List.foldl_cons, ih, List.getElem?_modify, List.countP_cons]
    cases l[i]? <;> by_cases h : d.2 = i <;> simp [h]
    omega

/-- Scheduling `c` takes its edges off the pending in-edges. -/
theorem countP_pending_append (es : List (Nat × Nat)) {done : List Nat} {c t : Nat}
    (hc : c ∉ done) :
    es.countP (fun e => e.2 = t ∧ e.1 ∉ done) =
      es.countP (fun e => e.2 = t ∧ e.1 ∉ done ++ [c]) + (es.filter (·.1 = c)).countP (·.2 = t) := by
  induction es with
  | nil => rfl
  | cons e es ih =>
    rw [List.countP_cons, List.countP_cons, List.filter_cons, ih]
    by_cases h1 : e.1 = c <;> by_cases h2 : e.2 = t <;> simp [h1, h2, hc, List.countP_cons] <;> omega

section Schedule

variable {g : TaskGraph} {done marked : List Nat}

theorem schedule_expected {cur : Nat} (hcur : cur ∈ marked) (hnd : cur ∉ done)
    (hno : ∀ t, (cur, t) ∈ g.edges → t ∉ done ∧ t ∉ marked) :
    schedule g ⟨expected g done marked, done⟩ cur = ⟨expected g (done ++ [cur]) marked, done ++ [cur]⟩ := by
  simp only [schedule, TopoState.mk.injEq, and_true]
  refine List.ext_getElem? fun i => ?_
  rw [getElem?_foldl_modify, getElem?_expected, getElem?_expected]
  by_cases hi : i < g.nodes
  · simp only [hi, if_true, Option.map_eq_map, Option.map_some', Option.some.injEq]
    by_cases hm : i ∈ done ∨ i ∈ marked
    · have hzero : (g.edges.filter (·.1 = cur)).countP (·.2 = i) = 0 :=
        List.countP_eq_zero.2 fun e he hei => by
          have ⟨he, hec⟩ := List.mem_filter.1 he
          have : (cur, i) ∈ g.edges := by
            simp only [decide_eq_true_eq] at hec hei
            rw [← hec, ← hei]; exact he
          exact absurd hm (not_or.2 (hno i this))
      have hm' : i ∈ done ++ [cur] ∨ i ∈ marked := by
        rcases hm with h | h
        · exact .inl (List.mem_append_left _ h)
        · exact .inr h
      rw [if_pos hm, if_pos hm', hzero]; rfl
    · have hm' : ¬ (i ∈ done ++ [cur] ∨ i ∈ marked) := by
        simp only [List.mem_append, List.mem_singleton, not_or] at hm ⊢
        exact ⟨⟨hm.1, fun h => hm.2 (h ▸ hcur)⟩, hm.2⟩
      simp only [hm, hm', if_false, pending, countP_pending_append g.edges (t := i) hnd]
      push_cast; omega
  · simp [hi]

theorem foldl_schedule_expected :
    ∀ (ps done : List Nat), (∀ c ∈ ps, c ∈ marked) → (done ++ ps).Nodup →
      (∀ c ∈ ps, ∀ t, (c, t) ∈ g.edges → t ∉ done ∧ t ∉ marked) →
      ps.foldl (schedule g) ⟨expected g done marked, done⟩ = ⟨expected g (done ++ ps) marked, done ++ ps⟩
  | [], done, _, _, _ => by simp
  | c :: ps, done, hps, hnd, hno => by
    have hc : c ∉ done := fun h => (List.nodup_append.1 hnd).2.2 h (List.mem_cons_self _ _)
    have hcm : c ∈ marked := hps c (List.mem_cons_self _ _)
    rw [List.foldl_cons, schedule_expected hcm hc (hno c (List.mem_cons_self _ _)),
      foldl_schedule_expected ps (done ++ [c]) (fun c' h => hps c' (List.mem_cons_of_mem _ h))
        (by simpa using hnd), List.append_assoc, List.singleton_append]
    intro c' hc' t ht
    have ⟨h1, h2⟩ := hno c' (List.mem_cons_of_mem _ hc') t ht
    simp only [List.mem_append, List.mem_singleton, not_or]
    exact ⟨⟨h1, fun h => h2 (h ▸ hcm)⟩, h2⟩

end Schedule

/-- Every in-edge of a task of the order comes from a task before it. -/
def Closed (g : TaskGraph) (order : List Nat) : Prop :=
  ∀ l1 v l2, order = l1 ++ v :: l2 → ∀ u, (u, v) ∈ g.edges → u ∈ l1

theorem Closed.append {g : TaskGraph} {order more : List Nat} (hc : Closed g order)
    (hm : ∀ v ∈ more, ∀ u, (u, v) ∈ g.edges → u ∈ order) : Closed g (order ++ more) := by
  intro l1 v l2 h u hu
  rcases List.append_eq_append_iff.1 h.symm with ⟨a', rfl, hb⟩ | ⟨c', rfl, hd⟩
  · cases a' with
    | nil =>
      rw [List.nil_append] at hb
      simpa using hm v (hb ▸ List.mem_cons_self _ _) u hu
    | cons w a' =>
      simp only [List.cons_append, List.cons.injEq] at hb
      obtain ⟨rfl, -⟩ := hb
      exact hc l1 v a' rfl u hu
  · exact List.mem_append_left _ (hm v (by simp [hd]) u hu)

/-- What holds between the rounds. -/
structure Inv (g : TaskGraph) (st : TopoState) : Prop where
  counts : st.inEdgeCounts = expected g st.order []
  bound : ∀ t ∈ st.order, t < g.nodes
  nodup : st.order.Nodup
  closed : Closed g st.order

theorem Closed.indexOf_lt {g : TaskGraph} {order : List Nat} (hc : Closed g order)
    (hnd : order.Nodup) {u v : Nat} (hv : v ∈ order) (he : (u, v) ∈ g.edges) :
    order.indexOf u < order.indexOf v := by
  obtain ⟨l1, l2, rfl⟩ := List.append_of_mem hv
  have hv1 : v ∉ l1 := fun h => (List.nodup_cons.1 (List.nodup_middle.1 hnd)).1 (List.mem_append_left _ h)
  have hu := hc l1 v l2 rfl u he
  rw [List.indexOf_append_of_mem hu, List.indexOf_append_of_not_mem hv1, List.indexOf_cons_self]
  exact List.indexOf_lt_length.2 hu

theorem Inv.init (g : TaskGraph) : Inv g (initState g) :=
  ⟨initState_eq, by simp [initState], List.nodup_nil, fun l1 v l2 h => by simp [initState] at h⟩

section Round

variable {g : TaskGraph} {st : TopoState}

theorem mem_candidates {order : List Nat} {t : Nat} :
    t ∈ candidates g (expected g order []) ↔
      t < g.nodes ∧ t ∉ order ∧ ∀ u, (u, t) ∈ g.edges → u ∈ order := by
  simp only [candidates, List.mem_filter, List.mem_range, decide_eq_true_eq]
  refine and_congr_right fun ht => ?_
  rw [getD_expected _ _ ht]
  by_cases hn : t ∈ order
  · simp [hn]
  · have hzero : pending g order t = 0 ↔ ∀ u, (u, t) ∈ g.edges → u ∈ order := by
      simp only [pending, List.countP_eq_zero, decide_eq_true_eq, not_and, not_not]
      exact ⟨fun h u hu => h _ hu rfl, fun h e he het => h e.1 (het ▸ he)⟩
    simp only [hn, List.not_mem_nil, or_false, if_false, not_false_eq_true, true_and]
    exact_mod_cast hzero

theorem Inv.mem_candidates (hi : Inv g st) {t : Nat} :
    t ∈ candidates g st.inEdgeCounts ↔
      t < g.nodes ∧ t ∉ st.order ∧ ∀ u, (u, t) ∈ g.edges → u ∈ st.order :=
  hi.counts ▸ TaskTopoSort.mem_candidates

theorem Inv.nodup_append (hi : Inv g st) : (st.order ++ candidates g st.inEdgeCounts).Nodup :=
  List.nodup_append.2 ⟨hi.nodup, (List.nodup_range _).filter _,
    fun _ h hc => (hi.mem_candidates.1 hc).2.1 h⟩

/-- A round appends the candidates and leaves the counts of the tasks then scheduled. -/
theorem Inv.round_eq (hi : Inv g st) :
    round g st = ⟨expected g (st.order ++ candidates g st.inEdgeCounts) [],
      st.order ++ candidates g st.inEdgeCounts⟩ := by
  have hno : ∀ c ∈ candidates g st.inEdgeCounts, ∀ t, (c, t) ∈ g.edges →
      t ∉ st.order ∧ t ∉ candidates g st.inEdgeCounts := by
    intro c hc t ht
    have hc' := (hi.mem_candidates.1 hc).2.1
    refine ⟨fun h => ?_, fun h => hc' ((hi.mem_candidates.1 h).2.2 c ht)⟩
    obtain ⟨l1, l2, hl⟩ := List.append_of_mem h
    exact hc' (hl ▸ List.mem_append_left _ (hi.closed l1 t l2 hl c ht))
  obtain ⟨counts, order⟩ := st
  obtain rfl : counts = expected g order [] := hi.counts
  simp only [round]
  rw [foldl_set_expected, List.nil_append,
    foldl_schedule_expected _ _ (fun _ h => h) hi.nodup_append hno,
    expected_of_subset fun _ h => List.mem_append_right _ h]

theorem Inv.step (hi : Inv g st) : Inv g (round g st) := by
  rw [hi.round_eq]
  refine ⟨rfl, fun t ht => ?_, hi.nodup_append, hi.closed.append fun v hv => (hi.mem_candidates.1 hv).2.2⟩
  rcases List.mem_append.1 ht with h | h
  · exact hi.bound t h
  · exact (hi.mem_candidates.1 h).1

theorem inv_iterate (g : TaskGraph) (k : Nat) : Inv g ((round g)^[k] (initState g)) := by
  induction k with
  | zero => exact Inv.init g
  | succ k ih => rw [Function.iterate_succ_apply']; exact ih.step

theorem Inv.length_le (hi : Inv g st) : st.order.length ≤ g.nodes :=
  (List.length_range g.nodes).symm ▸
    (List.subperm_of_subset hi.nodup fun t ht => List.mem_range.2 (hi.bound t ht)).length_le

/-- A round either queues nothing and changes nothing, or schedules another task. -/
theorem Inv.round_fixed_or_grows (hi : Inv g st) :
    round g st = st ∨ st.order.length < (round g st).order.length := by
  rw [hi.round_eq]
  cases h : candidates g st.inEdgeCounts with
  | nil => exact .inl (by rw [List.append_nil, ← hi.counts])
  | cons t ts => exact .inr (by simp)

/-- After `g.nodes + 1` rounds the loop has ended: no round queues anything more. -/
theorem round_iterate_fixed (g : TaskGraph) :
    round g ((round g)^[g.nodes + 1] (initState g)) = (round g)^[g.nodes + 1] (initState g) := by
  have key : ∀ k, round g ((round g)^[k] (initState g)) = (round g)^[k] (initState g) ∨
      k ≤ ((round g)^[k] (initState g)).order.length := by
    intro k
    induction k with
    | zero => exact .inr (Nat.zero_le _)
    | succ k ih =>
      rw [Function.iterate_succ_apply']
      rcases (inv_iterate g k).round_fixed_or_grows with h | h
      · exact .inl (by rw [h, h])
      · rcases ih with h' | h'
        · exact .inl (by rw [h', h'])
        · exact .inr (by omega)
  exact (key (g.nodes + 1)).resolve_right fun h => by
    have := (inv_iterate g (g.nodes + 1)).length_le
    omega

end Round

section Result

variable {g : TaskGraph}

/-- At the end of the loop every task left has an in-edge from another task left. -/
theorem pred_of_not_mem (g : TaskGraph) {t : Nat} (ht : t < g.nodes)
    (hn : t ∉ ((round g)^[g.nodes + 1] (initState g)).order) :
    ∃ u, (u, t) ∈ g.edges ∧ u ∉ ((round g)^[g.nodes + 1] (initState g)).order := by
  have hi := inv_iterate g (g.nodes + 1)
  have hnil := round_iterate_fixed g
  rw [hi.round_eq] at hnil
  have hc : candidates g ((round g)^[g.nodes + 1] (initState g)).inEdgeCounts = [] :=
    List.append_right_eq_self.1 (congrArg TopoState.order hnil)
  by_contra hall
  push_neg at hall
  exact List.not_mem_nil t (hc ▸ hi.mem_candidates.2 ⟨ht, hn, hall⟩)

theorem perm_range_iff {st : TopoState} (hi : Inv g st) :
    st.order.Perm (List.range g.nodes) ↔ st.order.length = g.nodes := by
  refine ⟨fun h => by rw [h.length_eq, List.length_range], fun h => ?_⟩
  exact (List.subperm_of_subset hi.nodup fun t ht => List.mem_range.2 (hi.bound t ht)).perm_of_length_le
    (by rw [List.length_range, h])

/-- An acyclic graph leaves no task unscheduled: a task left with no predecessor left would
have been queued, and the predecessor relation has a least element among the tasks left. -/
theorem mem_order_of_acyclic (hwf : g.WellFormed) (hacyc : ∀ t, ¬ g.Precedes t t) {t : Nat}
    (ht : t < g.nodes) : t ∈ ((round g)^[g.nodes + 1] (initState g)).order := by
  by_contra hn
  let r : Fin g.nodes → Fin g.nodes → Prop := fun a b => g.Precedes a b
  haveI : IsTrans (Fin g.nodes) r := ⟨fun _ _ _ => Relation.TransGen.trans⟩
  haveI : IsIrrefl (Fin g.nodes) r := ⟨fun a => hacyc a⟩
  obtain ⟨m, hm, hmin⟩ := (Finite.wellFounded_of_trans_of_irrefl r).has_min
    {a | a.val ∉ ((round g)^[g.nodes + 1] (initState g)).order} ⟨⟨t, ht⟩, hn⟩
  obtain ⟨u, hu, hun⟩ := pred_of_not_mem g m.isLt hm
  exact hmin ⟨u, (hwf _ hu).1⟩ hun (.single hu)

theorem getTopologicalOrder_true_iff (g : TaskGraph) :
    (getTopologicalOrder g).1 = true ↔ (getTopologicalOrder g).2.Perm (List.range g.nodes) := by
  simp only [getTopologicalOrder, beq_iff_eq]
  exact (perm_range_iff (inv_iterate g _)).symm

theorem perm_of_acyclic (hwf : g.WellFormed) (hacyc : ∀ t, ¬ g.Precedes t t) :
    (getTopologicalOrder g).2.Perm (List.range g.nodes) :=
  have hi := inv_iterate g (g.nodes + 1)
  (List.perm_ext_iff_of_nodup hi.nodup (List.nodup_range _)).2 fun _ =>
    ⟨fun h => List.mem_range.2 (hi.bound _ h), fun h => mem_order_of_acyclic hwf hacyc (List.mem_range.1 h)⟩

/-- The order of a successful sort puts the source of every edge before its target. -/
theorem indexOf_lt_of_perm (hwf : g.WellFormed)
    (hp : (getTopologicalOrder g).2.Perm (List.range g.nodes)) {u v : Nat}
    (he : (u, v) ∈ g.edges) :
    (getTopologicalOrder g).2.indexOf u < (getTopologicalOrder g).2.indexOf v :=
  have hi := inv_iterate g (g.nodes + 1)
  hi.closed.indexOf_lt hi.nodup (hp.mem_iff.2 (List.mem_range.2 (hwf _ he).2)) he

theorem acyclic_of_perm (hwf : g.WellFormed)
    (hp : (getTopologicalOrder g).2.Perm (List.range g.nodes)) (t : Nat) : ¬ g.Precedes t t :=
  fun h => Nat.lt_irrefl _ (BufferAllocation.precedes_rank_lt _ (fun _ _ he => indexOf_lt_of_perm hwf hp he) h)

end Result

/-- A task graph with node payloads `α` and edges `(source, target, payload)`. -/
structure LabelledGraph (α β : Type) where
  nodes : List α
  edges : List (Nat × Nat × β)
  deriving DecidableEq, Repr

namespace LabelledGraph

variable {α β : Type}

/-- The nodes and edges `GetTopologicalOrder` reads. -/
def shape (g : LabelledGraph α β) : TaskGraph :=
  ⟨g.nodes.length, g.edges.map fun e => (e.1, e.2.1)⟩

/-- `ReorderNodes(neworder)`: a node's new ID is its position in `neworder`, and each edge keeps
its payload and is pointed at the new IDs of its endpoints. A failed assertion (`neworder` is no
list of all nodes, each once) gives `none`. -/
def reorderNodes (g : LabelledGraph α β) (neworder : List Nat) : Option (LabelledGraph α β) :=
  if neworder.length = g.nodes.length ∧ neworder.Nodup ∧ ∀ t ∈ neworder, t < g.nodes.length then
    some ⟨neworder.filterMap (g.nodes[·]?),
      g.edges.map fun e => (neworder.indexOf e.1, neworder.indexOf e.2.1, e.2.2)⟩
  else none

theorem getElem?_filterMap_of_isSome {f : Nat → Option α} :
    ∀ {l : List Nat}, (∀ a ∈ l, (f a).isSome) → ∀ i : Nat, (l.filterMap f)[i]? = (l[i]?).bind f
  | [], _, i => rfl
  | a :: l, h, i => by
    obtain ⟨b, hb⟩ := Option.isSome_iff_exists.1 (h a (List.mem_cons_self _ _))
    rw [List.filterMap_cons_some hb]
    cases i with
    | zero => simp [hb]
    | succ i => simpa using getElem?_filterMap_of_isSome (fun a ha => h a (List.mem_cons_of_mem _ ha)) i

/-- `ReorderNodes` by a permutation lays the nodes out in its order and points every edge at the
new places of the nodes it connected. -/
theorem reorderNodes_perm (g : LabelledGraph α β) (hwf : g.shape.WellFormed) {neworder : List Nat}
    (hp : neworder.Perm (List.range g.nodes.length)) :
    ∃ g', g.reorderNodes neworder = some g' ∧
      (∀ i : Nat, g'.nodes[i]? = (neworder[i]?).bind fun t : Nat => g.nodes[t]?) ∧
      g'.edges.length = g.edges.length ∧
      ∀ (k : Nat) (e : Nat × Nat × β), g.edges[k]? = some e → ∃ e', g'.edges[k]? = some e' ∧
        neworder[e'.1]? = some e.1 ∧ neworder[e'.2.1]? = some e.2.1 ∧ e'.2.2 = e.2.2 := by
  have hmem : ∀ t, t ∈ neworder ↔ t < g.nodes.length := fun t => by
    rw [hp.mem_iff, List.mem_range]
  have hok : neworder.length = g.nodes.length ∧ neworder.Nodup ∧ ∀ t ∈ neworder, t < g.nodes.length :=
    ⟨by rw [hp.length_eq, List.length_range], hp.nodup_iff.2 (List.nodup_range _),
      fun t ht => (hmem t).1 ht⟩
  refine ⟨_, if_pos hok, getElem?_filterMap_of_isSome fun t ht => ?_, List.length_map _ _,
    fun k e he => ⟨_, by rw [List.getElem?_map, he]; rfl, ?_⟩⟩
  · simp [(hmem t).1 ht]
  · have hwf' := hwf _ (List.mem_map_of_mem _ (List.mem_iff_getElem?.2 ⟨k, he⟩))
    exact ⟨List.getElem?_indexOf ((hmem _).2 hwf'.1), List.getElem?_indexOf ((hmem _).2 hwf'.2), rfl⟩

end LabelledGraph

open LabelledGraph in
/-- `TaskTopoSort`: the sort succeeds exactly on acyclic graphs, with an order of all tasks in which
every edge goes forward, and the reordered graph lists the tasks in that order with every edge
between the same tasks as before. -/
theorem getTopologicalOrder_reorderNodes {α β : Type} (g : LabelledGraph α β)
    (hwf : g.shape.WellFormed) :
    ((getTopologicalOrder g.shape).1 = true ↔ ∀ t, ¬ g.shape.Precedes t t) ∧
    ((getTopologicalOrder g.shape).1 = true →
      (getTopologicalOrder g.shape).2.Perm (List.range g.nodes.length) ∧
      (∀ u v, (u, v) ∈ g.shape.edges →
        (getTopologicalOrder g.shape).2.indexOf u < (getTopologicalOrder g.shape).2.indexOf v) ∧
      ∃ g', g.reorderNodes (getTopologicalOrder g.shape).2 = some g' ∧
        (∀ i : Nat, g'.nodes[i]? = ((getTopologicalOrder g.shape).2[i]?).bind fun t : Nat => g.nodes[t]?) ∧
        g'.edges.length = g.edges.length ∧
        ∀ (k : Nat) (e : Nat × Nat × β), g.edges[k]? = some e → ∃ e', g'.edges[k]? = some e' ∧
          (getTopologicalOrder g.shape).2[e'.1]? = some e.1 ∧
          (getTopologicalOrder g.shape).2[e'.2.1]? = some e.2.1 ∧ e'.2.2 = e.2.2) := by
  have hiff := getTopologicalOrder_true_iff g.shape
  exact ⟨⟨fun h => acyclic_of_perm hwf (hiff.1 h), fun h => hiff.2 (perm_of_acyclic hwf h)⟩, fun h =>
    ⟨hiff.1 h, fun _ _ => indexOf_lt_of_perm hwf (hiff.1 h), reorderNodes_perm g hwf (hiff.1 h)⟩⟩

/-- Three tasks, the last one feeding both others, with edge payloads. -/
def threeTasks : LabelledGraph Nat Nat := ⟨[10, 20, 30], [(2, 0, 7), (0, 1, 8), (2, 1, 9)]⟩

example : getTopologicalOrder threeTasks.shape = (true, [2, 0, 1]) := by decide

example : (getTopologicalOrder ⟨2, [(0, 1), (1, 0)]⟩).1 = false := by decide

theorem threeTasks_sorted : threeTasks.shape.WellFormed ∧
    (((getTopologicalOrder threeTasks.shape).1 = true ↔ ∀ t, ¬ threeTasks.shape.Precedes t t) ∧
    ((getTopologicalOrder threeTasks.shape).1 = true →
      (getTopologicalOrder threeTasks.shape).2.Perm (List.range threeTasks.nodes.length) ∧
      (∀ u v, (u, v) ∈ threeTasks.shape.edges →
        (getTopologicalOrder threeTasks.shape).2.indexOf u <
          (getTopologicalOrder threeTasks.shape).2.indexOf v) ∧
      ∃ g', threeTasks.reorderNodes (getTopologicalOrder threeTasks.shape).2 = some g' ∧
        (∀ i : Nat, g'.nodes[i]? =
          ((getTopologicalOrder threeTasks.shape).2[i]?).bind fun t : Nat => threeTasks.nodes[t]?) ∧
        g'.edges.length = threeTasks.edges.length ∧
        ∀ (k : Nat) (e : Nat × Nat × Nat), threeTasks.edges[k]? = some e →
          ∃ e', g'.edges[k]? = some e' ∧
            (getTopologicalOrder threeTasks.shape).2[e'.1]? = some e.1 ∧
            (getTopologicalOrder threeTasks.shape).2[e'.2.1]? = some e.2.1 ∧ e'.2.2 = e.2.2)) :=
  ⟨by decide, getTopologicalOrder_reorderNodes threeTasks (by decide)⟩

end TaskTopoSort

end Ladybirds
