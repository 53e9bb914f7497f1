import Mathlib
import Ladybirds.SpaceDivision
import Ladybirds.Transient
import Ladybirds.DistanceTable
import Ladybirds.BufferIndices

/-! # The costs of the dependencies

`CalcDepCosts` prices the dependencies leaving each interface, sorted by the task they go to: the
last dependency to read a cell pays for writing it, and a walk back from each dependency gives its
read cost for a burst from each task on. Task IDs are positions of the reordered task graph.
-/

namespace Ladybirds

namespace Transient

open BufferAllocation (TaskGraph)

/-- A dependency of one entry of `outdeps` as `CalcDepCosts` reads it: the pointer `pdep` (its
position in the program's list), `gettoid(pdep)` and `pdep->From.Index`. -/
structure OutDep where
  label : Nat
  toId : Nat
  fromIndex : Space
  deriving DecidableEq, Repr

section Costs

variable {β : Type}

/-- `std::map::emplace_hint`: the entry goes in at its place among the ascending keys, unless its
key is there already. -/
def emplaceHint : List (Nat × β) → Nat → β → List (Nat × β)
  | [], k, v => [(k, v)]
  | (k', v') :: m, k, v =>
    if k < k' then (k, v) :: (k', v') :: m
    else if k = k' then (k', v') :: m
    else (k', v') :: emplaceHint m k v

variable [AddCommGroup β] [DecidableEq β]

/-- The loop over `it2` for the dependency labelled `self`, walking back from it over `deps`:
each section is assigned in `sd2`, and after the last dependency to a task the volume of the
envelope of what `self` keeps is its read cost from that task on; a cost of zero ends the loop.
`it2end = std::prev(deps.begin())` is read as the end of the walk. -/
def readCostLoop (itemreadcost : β) (self : Nat) :
    SpaceDivision Nat → List (Nat × β) → List OutDep → List (Nat × β)
  | _, rcmap, [] => rcmap
  | sd2, rcmap, d :: rest =>
    let sd2 := sd2.assignSection d.fromIndex d.label
    if rest.head?.map (·.toId) = some d.toId then readCostLoop itemreadcost self sd2 rcmap rest
    else
      let cost := (sd2.getEnvelope self).volume • itemreadcost
      let rcmap := emplaceHint rcmap d.toId cost
      if cost = 0 then rcmap else readCostLoop itemreadcost self sd2 rcmap rest

/-- The loops of `CalcDepCosts` over one entry of `outdeps`, whose dependencies `deps` are
sorted by `gettoid`: the `DepCost` of each dependency, under its label. -/
def entryCosts (dims : Space) (fromid : Nat) (itemreadcost itemwritecost : β)
    (deps : List OutDep) : List (Nat × DepCost β) :=
  let sd := deps.foldl (fun sd d => sd.assignSection d.fromIndex d.label) (SpaceDivision.empty dims)
  deps.mapIdx fun k d => (d.label,
    ⟨fromid, d.toId,
      readCostLoop itemreadcost d.label (SpaceDivision.empty dims) [] (deps.take (k + 1)).reverse,
      (sd.getEnvelope d.label).volume • itemwritecost⟩)

/-- `GetID()` of a task as a position of the reordered task graph. The main task is no node: the
node maps of `CalcDistanceTable` are indexed with it, which is undefined. -/
def nodeId : TaskRef → Option Nat
  | .main => none
  | .node i => some i

/-- The body of the loop of `CalcDepCosts` over `outdeps`, for the entry of the interface `f`: its
dependencies in the order of the program's list (`GetOutDeps`), sorted by `gettoid` and priced.
The interface's space is `dims f`; its task and base type are read off its first dependency.
`std::sort` leaves the order of the dependencies to one task open; here it is the order of the
entry. -/
def outDepCosts (dims : Nat → Space) (readcost writecost : β) (deps : List Dep) (f : Nat) :
    Option (List (Nat × DepCost β)) := do
  let entry := deps.enum.filter (·.2.fromIface = f)
  let first ← entry.head?
  let fromid ← nodeId first.2.fromTask
  let outs ← entry.mapM fun p =>
    (nodeId p.2.toTask).map fun t => (⟨p.1, t, p.2.fromIndex⟩ : OutDep)
  pure (entryCosts (dims f) fromid (first.2.baseSize • readcost) (first.2.baseSize • writecost)
    (outs.insertionSort fun a b => a.toId ≤ b.toId))

/-- `CalcDepCosts` with the lookups `depcosts[&dep]` of `CalcDistanceTable`: the `DepCost` of each
dependency, in the order of the program's list. -/
def calcDepCosts (dims : Nat → Space) (readcost writecost : β) (deps : List Dep) :
    Option (List (DepCost β)) := do
  let costs ← (deps.map (·.fromIface)).dedup.mapM (outDepCosts dims readcost writecost deps)
  (List.range deps.length).mapM fun p => (costs.flatten.find? (·.1 = p)).map (·.2)

end Costs

section Keys

variable {β : Type}

theorem mem_keys_emplaceHint {m : List (Nat × β)} {k k' : Nat} {v : β} :
    k' ∈ (emplaceHint m k v).map Prod.fst ↔ k' = k ∨ k' ∈ m.map Prod.fst := by
  induction m with
  | nil => simp [emplaceHint]
  | cons e m ih =>
    simp only [emplaceHint]
    split_ifs with h₁ h₂
    · simp
    · simp [h₂]
    · simp only [List.map_cons, List.mem_cons, ih, or_left_comm]

theorem lowerBound_isSome {readCost : List (Nat × β)} {k minid : Nat}
    (hk : k ∈ readCost.map Prod.fst) (hle : minid ≤ k) : (lowerBound readCost minid).isSome := by
  obtain ⟨⟨k, v⟩, hkv, rfl⟩ := List.mem_map.1 hk
  rw [lowerBound, Option.isSome_map', List.find?_isSome]
  exact ⟨(k, v), hkv, decide_eq_true hle⟩

variable [AddCommGroup β] [DecidableEq β] (c : β) (self : Nat)

theorem readCostLoop_keys_mono {k : Nat} : ∀ (l : List OutDep) (sd2 : SpaceDivision Nat)
    (rcmap : List (Nat × β)), k ∈ rcmap.map Prod.fst →
      k ∈ (readCostLoop c self sd2 rcmap l).map Prod.fst
  | [], _, _, h => h
  | d :: rest, sd2, rcmap, h => by
    have h' : k ∈ (emplaceHint rcmap d.toId
        (((sd2.assignSection d.fromIndex d.label).getEnvelope self).volume • c)).map Prod.fst :=
      mem_keys_emplaceHint.2 (.inr h)
    simp only [readCostLoop]
    split_ifs
    · exact readCostLoop_keys_mono rest _ _ h
    · exact h'
    · exact readCostLoop_keys_mono rest _ _ h'

/-- The walk back from a dependency prices a burst from its own task. -/
theorem readCostLoop_first_key : ∀ (d : OutDep) (rest : List OutDep) (sd2 : SpaceDivision Nat)
    (rcmap : List (Nat × β)), d.toId ∈ (readCostLoop c self sd2 rcmap (d :: rest)).map Prod.fst
  | d, rest, sd2, rcmap => by
    have h : d.toId ∈ (emplaceHint rcmap d.toId
        (((sd2.assignSection d.fromIndex d.label).getEnvelope self).volume • c)).map Prod.fst :=
      mem_keys_emplaceHint.2 (.inl rfl)
    match rest with
    | [] =>
      simp only [readCostLoop, List.head?_nil, Option.map_none', reduceCtorEq, if_false]
      split_ifs
      · exact h
      · exact h
    | d' :: rest =>
      rw [readCostLoop]
      simp only [List.head?_cons, Option.map_some', Option.some.injEq]
      split_ifs with hd
      · exact hd ▸ readCostLoop_first_key d' rest _ rcmap
      · exact h
      · exact readCostLoop_keys_mono c self (d' :: rest) _ _ h

theorem mem_entryCosts {dims : Space} {fromid : Nat} {cr cw : β} {deps : List OutDep} {l : Nat}
    {dc : DepCost β} (h : (l, dc) ∈ entryCosts dims fromid cr cw deps) :
    ∃ d ∈ deps, l = d.label ∧ dc.src = fromid ∧ dc.dst = d.toId ∧
      dc.dst ∈ dc.readCost.map Prod.fst := by
  simp only [entryCosts, List.mem_mapIdx, Prod.mk.injEq] at h
  obtain ⟨k, hk, rfl, rfl⟩ := h
  have hwalk : (deps.take (k + 1)).reverse = deps[k] :: (deps.take k).reverse := by
    rw [List.take_succ, List.getElem?_eq_getElem hk, Option.toList_some, List.reverse_append,
      List.reverse_singleton, List.singleton_append]
  refine ⟨deps[k], List.getElem_mem hk, rfl, rfl, rfl, ?_⟩
  rw [hwalk]
  exact readCostLoop_first_key cr _ _ _ _ _

theorem label_mem_entryCosts {dims : Space} {fromid : Nat} {cr cw : β} {deps : List OutDep}
    {d : OutDep} (hd : d ∈ deps) : ∃ dc, (d.label, dc) ∈ entryCosts dims fromid cr cw deps := by
  obtain ⟨k, hk, rfl⟩ := List.mem_iff_getElem.1 hd
  exact ⟨_, List.mem_mapIdx.2 ⟨k, hk, rfl⟩⟩

end Keys

section Table

variable {β : Type} [AddCommGroup β] [DecidableEq β]

/-- The `DepCost` of a dependency `d` of the program: it goes to the task of `d`, comes from the
task of an interface key equal to that of `d`, and prices a burst from the task it goes to. -/
def CostOf (deps : List Dep) (d : Dep) (dc : DepCost β) : Prop :=
  nodeId d.toTask = some dc.dst ∧
    (∃ d' ∈ deps, d'.fromIface = d.fromIface ∧ nodeId d'.fromTask = some dc.src) ∧
    dc.dst ∈ dc.readCost.map Prod.fst

variable {dims : Nat → Space} {readcost writecost : β} {deps : List Dep}

theorem outDepCosts_eq_some (hnodes : ∀ d ∈ deps, (nodeId d.fromTask).isSome ∧ (nodeId d.toTask).isSome)
    {f : Nat} (hf : f ∈ deps.map (·.fromIface)) :
    ∃ r, outDepCosts dims readcost writecost deps f = some r := by
  obtain ⟨d, hd, rfl⟩ := List.mem_map.1 hf
  obtain ⟨p, hp⟩ := List.mem_iff_getElem?.1 hd
  obtain ⟨first, hfirst⟩ : ∃ first, (deps.enum.filter (·.2.fromIface = d.fromIface)).head? = some first :=
    Option.isSome_iff_exists.1 (List.head?_isSome.2 (List.ne_nil_of_mem (List.mem_filter.2
      ⟨(List.mem_enum_iff_getElem? (x := (p, d))).2 hp, by simp⟩)))
  have hin := List.mem_of_mem_head? hfirst
  obtain ⟨fromid, hfromid⟩ := Option.isSome_iff_exists.1
    (hnodes _ (List.snd_mem_of_mem_enum (List.mem_filter.1 hin).1)).1
  obtain ⟨outs, houts⟩ : ∃ outs, (deps.enum.filter (·.2.fromIface = d.fromIface)).mapM
      (fun q => (nodeId q.2.toTask).map fun t => (⟨q.1, t, q.2.fromIndex⟩ : OutDep)) = some outs :=
    exists_mapM_eq_some fun q hq => by
      obtain ⟨t, ht⟩ := Option.isSome_iff_exists.1
        (hnodes _ (List.snd_mem_of_mem_enum (List.mem_filter.1 hq).1)).2
      exact ⟨_, by rw [ht]; rfl⟩
  exact ⟨_, by simp only [outDepCosts, hfirst, hfromid, houts, Option.bind_eq_bind,
    Option.some_bind]; rfl⟩

theorem mem_outDepCosts {f : Nat} {r : List (Nat × DepCost β)}
    (h : outDepCosts dims readcost writecost deps f = some r) {l : Nat} {dc : DepCost β}
    (hl : (l, dc) ∈ r) : ∃ d, deps[l]? = some d ∧ d.fromIface = f ∧ CostOf deps d dc := by
  simp only [outDepCosts, Option.bind_eq_bind, Option.bind_eq_some, Option.pure_def,
    Option.some.injEq] at h
  obtain ⟨first, hfirst, fromid, hfromid, outs, houts, rfl⟩ := h
  obtain ⟨d', hd', rfl, hsrc, hdst, hkey⟩ := mem_entryCosts hl
  obtain ⟨q, hq, hqd⟩ := exists_of_mem_mapM_result houts d' ((List.mem_insertionSort _).1 hd')
  obtain ⟨t, ht, rfl⟩ := Option.map_eq_some'.1 hqd
  have hfq := List.mem_filter.1 hq
  have hff := List.mem_filter.1 (List.mem_of_mem_head? hfirst)
  refine ⟨q.2, List.mem_enum_iff_getElem?.1 hfq.1, by simpa using hfq.2, hdst ▸ ht,
    ⟨first.2, List.snd_mem_of_mem_enum hff.1, ?_, hsrc ▸ hfromid⟩, hkey⟩
  simp only [decide_eq_true_eq] at hfq hff
  rw [hff.2, hfq.2]

theorem label_mem_outDepCosts {f : Nat} {r : List (Nat × DepCost β)}
    (h : outDepCosts dims readcost writecost deps f = some r) {p : Nat} {d : Dep}
    (hp : deps[p]? = some d) (hd : d.fromIface = f) : ∃ dc, (p, dc) ∈ r := by
  simp only [outDepCosts, Option.bind_eq_bind, Option.bind_eq_some, Option.pure_def,
    Option.some.injEq] at h
  obtain ⟨first, -, fromid, -, outs, houts, rfl⟩ := h
  obtain ⟨o, ho, hpo⟩ := exists_of_mem_mapM houts (p, d)
    (List.mem_filter.2 ⟨(List.mem_enum_iff_getElem? (x := (p, d))).2 hp, by simpa using hd⟩)
  obtain ⟨t, -, rfl⟩ := Option.map_eq_some'.1 hpo
  exact label_mem_entryCosts ((List.mem_insertionSort _).2 ho)

/-- With every dependency between nodes of the task graph, `CalcDepCosts` prices each one: its
`DepCost` goes to its task, comes from the task of its interface, and has a read cost for a
burst from the task it goes to. -/
theorem calcDepCosts_eq_some
    (hnodes : ∀ d ∈ deps, (nodeId d.fromTask).isSome ∧ (nodeId d.toTask).isSome) :
    ∃ costs, calcDepCosts dims readcost writecost deps = some costs ∧
      ∀ dc ∈ costs, ∃ d ∈ deps, CostOf deps d dc := by
  obtain ⟨entries, hentries⟩ : ∃ entries, (deps.map (·.fromIface)).dedup.mapM
      (outDepCosts dims readcost writecost deps) = some entries :=
    exists_mapM_eq_some fun f hf => outDepCosts_eq_some hnodes (List.mem_dedup.1 hf)
  have hfind : ∀ p ∈ List.range deps.length,
      ∃ dc, ((entries.flatten.find? (·.1 = p)).map (·.2)) = some dc := fun p hp => by
    obtain ⟨d, hd⟩ : ∃ d, deps[p]? = some d :=
      ⟨_, List.getElem?_eq_getElem (List.mem_range.1 hp)⟩
    obtain ⟨r, hr, hfr⟩ := exists_of_mem_mapM hentries d.fromIface
      (List.mem_dedup.2 (List.mem_map.2 ⟨d, List.getElem?_mem hd, rfl⟩))
    obtain ⟨dc, hdc⟩ := label_mem_outDepCosts hfr hd rfl
    obtain ⟨x, hx⟩ : ∃ x, entries.flatten.find? (·.1 = p) = some x := Option.isSome_iff_exists.1
      (List.find?_isSome.2 ⟨(p, dc), List.mem_flatten.2 ⟨r, hr, hdc⟩, by simp⟩)
    exact ⟨x.2, by rw [hx]; rfl⟩
  obtain ⟨costs, hcosts⟩ := exists_mapM_eq_some hfind
  refine ⟨costs, by simp only [calcDepCosts, hentries, hcosts, Option.bind_eq_bind,
    Option.some_bind], fun dc hdc => ?_⟩
  obtain ⟨p, -, hp⟩ := exists_of_mem_mapM_result hcosts dc hdc
  obtain ⟨x, hx, rfl⟩ := Option.map_eq_some'.1 hp
  obtain ⟨r, hr, hxr⟩ := List.mem_flatten.1 (List.mem_of_find?_eq_some hx)
  obtain ⟨f, -, hfr⟩ := exists_of_mem_mapM_result hentries r hr
  obtain ⟨d, hd, -, hcost⟩ := mem_outDepCosts hfr hxr
  exact ⟨d, List.getElem?_mem hd, hcost⟩

/-- Task 0 writes the four cells of interface 0; task 2 reads `[2, 4)` and `[1, 3)` of them and
task 1 reads `[0, 2)`. -/
def fourCells : List Dep :=
  [⟨0, .node 0, .node 2, [Range.beginEnd 2 4 (by decide)], 1⟩,
    ⟨0, .node 0, .node 1, [Range.beginEnd 0 2 (by decide)], 1⟩,
    ⟨0, .node 0, .node 2, [Range.beginEnd 1 3 (by decide)], 1⟩]

example : calcDepCosts (fun _ => [Range.beginEnd 0 4 (by decide)]) (1 : Int) 10 fourCells =
    some [⟨0, 2, [(1, 2), (2, 2)], 10⟩, ⟨0, 1, [(1, 2)], 10⟩, ⟨0, 2, [(1, 0), (2, 1)], 20⟩] := by
  decide

end Table

section Meaning

open SpaceDivision

/-- `E` is the bounding box of the cells `P`: it holds them all, and each face of each of its
ranges is reached by one of them; with no cell, every range of `E` is empty. -/
def IsBoundingBox (P : List Int → Prop) (E : Space) : Prop :=
  ((∃ x, P x) → (∀ x, P x → Space.Mem E x) ∧
    ∀ (k : Nat) (r : Range), E[k]? = some r → (∃ x, P x ∧ x[k]? = some r.lo) ∧
      ∃ x, P x ∧ x[k]? = some (r.hi - 1)) ∧
  ((¬ ∃ x, P x) → ∀ r ∈ E, r.isEmpty = true)

variable {P Q : List Int → Prop} {E E' : Space}

theorem IsBoundingBox.congr (h : ∀ x, P x ↔ Q x) (hb : IsBoundingBox P E) :
    IsBoundingBox Q E :=
  (funext fun x => propext (h x) : P = Q) ▸ hb

/-- The calls assigning the sections of `l` in order, each under its label. -/
def assigns (l : List OutDep) : List (DivOp Nat) :=
  l.map fun d => .assignSection d.fromIndex d.label

theorem foldl_assignSection (l : List OutDep) (sd : SpaceDivision Nat) :
    l.foldl (fun sd d => sd.assignSection d.fromIndex d.label) sd = sd.run (assigns l) := by
  rw [SpaceDivision.run, assigns, List.foldl_map]
  rfl

theorem run_assigns_append (sd : SpaceDivision Nat) (l : List OutDep) (d : OutDep) :
    sd.run (assigns (l ++ [d])) = (sd.run (assigns l)).assignSection d.fromIndex d.label := by
  rw [← foldl_assignSection, ← foldl_assignSection, List.foldl_append]
  rfl

theorem foldl_relabel_of_not_mem {x : List Int} : ∀ (l : List OutDep) (f : List Int → Option Nat),
    (∀ q ∈ l, ¬ Space.Mem q.fromIndex x) → (assigns l).foldl (fun f o => o.relabel f) f x = f x
  | [], _, _ => rfl
  | d :: l, f, h => by
    rw [assigns, List.map_cons, List.foldl_cons, ← assigns,
      foldl_relabel_of_not_mem l _ fun q hq => h q (List.mem_cons_of_mem _ hq)]
    exact if_neg (h d (List.mem_cons_self _ _))

theorem foldl_relabel_eq_some {x : List Int} {a : Nat} : ∀ (l : List OutDep)
    (f : List Int → Option Nat), (assigns l).foldl (fun f o => o.relabel f) f x = some a →
      (f x = some a ∧ ∀ q ∈ l, ¬ Space.Mem q.fromIndex x) ∨ ∃ q ∈ l, q.label = a
  | [], _, h => .inl ⟨h, fun _ h => absurd h (List.not_mem_nil _)⟩
  | d :: l, f, h => by
    rw [assigns, List.map_cons, List.foldl_cons, ← assigns] at h
    rcases foldl_relabel_eq_some l _ h with ⟨hd, hl⟩ | ⟨q, hq, hqa⟩
    · by_cases hm : Space.Mem d.fromIndex x
      · exact .inr ⟨d, List.mem_cons_self _ _, Option.some.inj ((if_pos hm).symm.trans hd)⟩
      · refine .inl ⟨(if_neg hm).symm.trans hd, fun q hq => ?_⟩
        rcases List.mem_cons.1 hq with rfl | hq
        · exact hm
        · exact hl q hq
    · exact .inr ⟨q, List.mem_cons_of_mem _ hq, hqa⟩

/-- After the sections of a list with distinct labels are assigned in order, a dependency holds
the cells of its section inside the space that no later section takes. -/
theorem covers_run_assigns {F : Space} {pre post : List OutDep} {d : OutDep}
    (hdim : ∀ q ∈ pre ++ d :: post, q.fromIndex.length = F.length)
    (hnd : ((pre ++ d :: post).map (·.label)).Nodup) (x : List Int) :
    ((empty F).run (assigns (pre ++ d :: post))).Covers x d.label ↔
      Space.Mem F x ∧ Space.Mem d.fromIndex x ∧ ∀ q ∈ post, ¬ Space.Mem q.fromIndex x := by
  have hops : ∀ o ∈ assigns (pre ++ d :: post), o.DimOk F := by
    intro o ho
    obtain ⟨q, hq, rfl⟩ := List.mem_map.1 ho
    exact hdim q hq
  rw [(run_spec _ (wf_empty F) (represents_empty F) hops).2 x d.label]
  rw [List.map_append, List.map_cons, List.nodup_append, List.nodup_cons] at hnd
  obtain ⟨-, ⟨hpost, -⟩, hdisj⟩ := hnd
  have hpre : d.label ∉ pre.map (·.label) := fun h => hdisj h (List.mem_cons_self _ _)
  rw [assigns, List.map_append, List.map_cons, List.foldl_append, List.foldl_cons, ← assigns,
    ← assigns]
  refine and_congr_right fun _ => ⟨fun h => ?_, fun ⟨hm, hp⟩ => ?_⟩
  · rcases foldl_relabel_eq_some post _ h with ⟨hd, hp⟩ | ⟨q, hq, hqa⟩
    · refine ⟨by_contra fun hm => ?_, hp⟩
      rcases foldl_relabel_eq_some pre _ ((if_neg hm).symm.trans hd) with ⟨hn, -⟩ | ⟨q, hq, hqa⟩
      · cases hn
      · exact hpre (List.mem_map.2 ⟨q, hq, hqa⟩)
    · exact absurd (List.mem_map.2 ⟨q, hq, hqa⟩) hpost
  · rw [foldl_relabel_of_not_mem post _ hp]
    exact if_pos hm

theorem length_getEnvelope {F : Space} {d : SpaceDivision Nat} (hw : Wf F d) (a : Nat) :
    (d.getEnvelope a).length = F.length := by
  unfold getEnvelope
  rcases hl : (d.sections.filter (fun p => p.1 = a)).map Prod.snd with _ | ⟨s, rest⟩
  · simp only [hl, Space.clear, List.length_map, hw.full]
  · simp only [hl]
    have hmem : ∀ t ∈ s :: rest, ∃ b, (b, t) ∈ d.sections := fun t ht => by
      rw [← hl] at ht
      obtain ⟨⟨b, t'⟩, hp, rfl⟩ := List.mem_map.1 ht
      exact ⟨b, (List.mem_filter.1 hp).1⟩
    obtain ⟨b, hb⟩ := hmem s (List.mem_cons_self _ _)
    rw [(foldl_union_wf rest (hw.nonempty _ hb) fun t ht => ?_).2, hw.dims _ hb]
    obtain ⟨b', hb'⟩ := hmem t (List.mem_cons_of_mem _ ht)
    exact ⟨hw.nonempty _ hb', (hw.dims _ hb').trans (hw.dims _ hb).symm⟩

/-- The envelope of a label after a run of assignments is the bounding box of its cells, with
the dimensionality of the space. -/
theorem getEnvelope_run_assigns {F : Space} {pre post : List OutDep} {d : OutDep}
    (hdim : ∀ q ∈ pre ++ d :: post, q.fromIndex.length = F.length)
    (hnd : ((pre ++ d :: post).map (·.label)).Nodup) :
    (((empty F).run (assigns (pre ++ d :: post))).getEnvelope d.label).length = F.length ∧
      IsBoundingBox (fun x => Space.Mem F x ∧ Space.Mem d.fromIndex x ∧
        ∀ q ∈ post, ¬ Space.Mem q.fromIndex x)
        (((empty F).run (assigns (pre ++ d :: post))).getEnvelope d.label) := by
  have hops : ∀ o ∈ assigns (pre ++ d :: post), o.DimOk F := by
    intro o ho
    obtain ⟨q, hq, rfl⟩ := List.mem_map.1 ho
    exact hdim q hq
  have hw := (run_spec _ (wf_empty F) (represents_empty F) hops).1
  exact ⟨length_getEnvelope hw _, IsBoundingBox.congr (covers_run_assigns hdim hnd) (hw.isEnvelope _)⟩

variable {β : Type} [AddCommGroup β] [DecidableEq β]

/-- The entry of `fourCells` in `gettoid` order, labelled by position in the program's list. -/
def fourCellsEntry : List OutDep :=
  [⟨1, 1, [Range.beginEnd 0 2 (by decide)]⟩, ⟨0, 2, [Range.beginEnd 2 4 (by decide)]⟩,
    ⟨2, 2, [Range.beginEnd 1 3 (by decide)]⟩]

end Meaning

end Transient

end Ladybirds
