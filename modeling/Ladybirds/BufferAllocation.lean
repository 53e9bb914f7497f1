import Mathlib.Data.List.Sort
import Mathlib.Logic.Relation
import Ladybirds.BankAssignment
import Ladybirds.OptionTraversal
import Ladybirds.ItemSet

/-! # Buffer merging

`BufferAllocation` merges the buffers of a task division whose live ranges do not overlap, as the
task reachability matrix of `PruneEdges` tells, by colouring their conflict graph greedily. The
matrix can miss paths but never holds a task that is not reachable, which is all merging needs.
-/

namespace Ladybirds

namespace BufferAllocation

/-- The task graph as `CalcSuccessorMatrix` receives it: tasks `0 .. nodes - 1` and its edges. -/
structure TaskGraph where
  nodes : Nat
  edges : List (Nat × Nat)
  deriving DecidableEq, Repr

/-- `a` is a transitive predecessor of `b`: a path of edges leads from `a` to `b`. -/
def TaskGraph.Precedes (g : TaskGraph) : Nat → Nat → Prop :=
  Relation.TransGen fun a b => (a, b) ∈ g.edges

/-- `ItemSet::Contains` on a row of a matrix, stored as its bit vector. -/
def contains (s : List Bool) (m : Nat) : Bool := s.getD m false

/-- `ItemSet::operator|=`. -/
def union (s t : List Bool) : List Bool := List.zipWith (· || ·) s t

/-- `AdjacencyMatrix`: row `n` holds the targets of the edges leaving `n`. -/
def adjacencyMatrix (g : TaskGraph) : List (List Bool) :=
  (List.range g.nodes).map fun n => (List.range g.nodes).map fun m => decide ((n, m) ∈ g.edges)

/-- One step of the double loop of `PruneEdges`: if row `n1` holds `n2`, it takes in row `n2`. -/
def pruneStep (n1 : Nat) (ret : List (List Bool)) (n2 : Nat) : List (List Bool) :=
  if contains (ret.getD n1 []) n2 then ret.set n1 (union (ret.getD n1 []) (ret.getD n2 [])) else ret

/-- The matrix `PruneEdges` returns. The edges it removes from the task graph keep their ends in
the graph, and buffer merging reads no edge of it. -/
def pruneEdges (g : TaskGraph) : List (List Bool) :=
  (List.range g.nodes).foldl (fun ret n1 => (List.range g.nodes).foldl (pruneStep n1) ret)
    (adjacencyMatrix g)

/-- Every entry of the matrix is a path of the task graph. -/
def Sound (g : TaskGraph) (ret : List (List Bool)) : Prop :=
  ∀ n m, contains (ret.getD n []) m = true → g.Precedes n m

section Reachability

variable {g : TaskGraph} {ret : List (List Bool)}

theorem contains_union {s t : List Bool} {m : Nat} (h : contains (union s t) m = true) :
    contains s m = true ∨ contains t m = true := by
  simp only [contains, union, List.getD_eq_getElem?_getD, List.getElem?_zipWith] at *
  split at h <;> simp_all

theorem sound_adjacencyMatrix (g : TaskGraph) : Sound g (adjacencyMatrix g) := by
  intro n m h
  have : (n, m) ∈ g.edges := by
    by_cases hn : n < g.nodes <;> by_cases hm : m < g.nodes <;>
      simp_all [contains, adjacencyMatrix, List.getElem?_range, List.getElem?_eq_none]
  exact .single this

theorem Sound.pruneStep (hs : Sound g ret) (n1 n2 : Nat) : Sound g (pruneStep n1 ret n2) := by
  unfold BufferAllocation.pruneStep
  split
  · rename_i h12
    intro n m hm
    simp only [List.getD_eq_getElem?_getD, List.getElem?_set] at hm
    split_ifs at hm with hn hl
    · subst hn
      rcases contains_union (by simpa using hm) with h | h
      · exact hs n1 m (by simpa using h)
      · exact .trans (hs n1 n2 (by simpa using h12)) (hs n2 m (by simpa using h))
    · simp [contains] at hm
    · exact hs n m (by simpa using hm)
  · exact hs

/-- `PruneEdges` never lists a task that is not reachable. -/
theorem sound_pruneEdges (g : TaskGraph) : Sound g (pruneEdges g) :=
  List.foldlRecOn _ _ _ (sound_adjacencyMatrix g) fun _ h n1 _ =>
    List.foldlRecOn (motive := Sound g) _ _ _ h fun _ h n2 _ => h.pruneStep n1 n2

/-- A rank that every edge raises grows along every path, so a graph with one is acyclic. -/
theorem precedes_rank_lt (rank : Nat → Nat) (hr : ∀ a b, (a, b) ∈ g.edges → rank a < rank b)
    {a b : Nat} (h : g.Precedes a b) : rank a < rank b := by
  induction h with
  | single hab => exact hr _ _ hab
  | tail _ hbc ih => exact ih.trans (hr _ _ hbc)

/-- An acyclic task graph whose tasks are not listed in topological order: the path
`0 → 2 → 1 → 3` visits task 1 after task 2. -/
def zigzag : TaskGraph := ⟨4, [(0, 2), (2, 1), (1, 3)]⟩

/-- When row 0 takes in row 2 (and with it task 1), the inner loop has passed task 1, and row 2
takes in row 1 (and with it task 3) only once the outer loop reaches it, after row 0. So the
matrix misses the path from task 0 to task 3. -/
theorem pruneEdges_zigzag_misses_path :
    (∀ n, ¬ zigzag.Precedes n n) ∧ zigzag.Precedes 0 3 ∧
      contains ((pruneEdges zigzag).getD 0 []) 3 = false := by
  refine ⟨fun n h => ?_, ?_, by decide⟩
  · have hr : ∀ a b, (a, b) ∈ zigzag.edges → [0, 2, 1, 3].getD a 0 < [0, 2, 1, 3].getD b 0 := by
      intro a b hab
      simp only [zigzag, List.mem_cons, Prod.mk.injEq, List.mem_nil_iff, or_false] at hab
      rcases hab with ⟨rfl, rfl⟩ | ⟨rfl, rfl⟩ | ⟨rfl, rfl⟩ <;> decide
    exact Nat.lt_irrefl _ (precedes_rank_lt _ hr h)
  · have h02 : zigzag.Precedes 0 2 := .single (by decide)
    exact .tail (.tail h02 (by decide : (2, 1) ∈ zigzag.edges)) (by decide)

end Reachability

/-- The fields of `impl::Buffer` that buffer merging reads: its size, and whether it has a
`pExternalSource`. -/
structure Buffer where
  size : Int
  external : Bool
  deriving DecidableEq, Repr, Inhabited

/-- The buffer an interface is bound to: the `i`-th buffer of the division (`IsValidElement`), or
a buffer of another division, of which only whether it is external is read. -/
inductive BufferRef where
  | own (i : Nat)
  | foreign (external : Bool)
  deriving DecidableEq, Repr

/-- A task of the division: its node in the task graph and the buffers of its interfaces. -/
structure Task where
  id : Nat
  ifaces : List BufferRef
  deriving DecidableEq, Repr

/-- `impl::TaskDivision`: its buffers and its tasks, in the order of `GetTasks()`. -/
structure TaskDivision where
  buffers : List Buffer
  tasks : List Task
  deriving DecidableEq, Repr

/-- Task `t` of the division accesses its `b`-th buffer. -/
def TaskDivision.Accesses (div : TaskDivision) (b t : Nat) : Prop :=
  ∃ task ∈ div.tasks, task.id = t ∧ BufferRef.own b ∈ task.ifaces

/-- `BufferNode`: the buffer it stands for (`pBuffer`, an index into the division's buffers), the
set of tasks accessing it and its last accesses. Its `pFinalBuffer` is kept by the colouring. -/
structure BufferNode where
  buffer : Nat
  accesses : List Nat
  lastAccesses : List Nat
  deriving DecidableEq, Repr, Inhabited

/-- `buffermap[ptr]`, created on the first access to the buffer, and `Accesses.Insert(ptask)`. -/
def addAccess (nodes : List BufferNode) (b t : Nat) : List BufferNode :=
  if nodes.any (·.buffer = b) then
    nodes.map fun n => if n.buffer = b then { n with accesses := n.accesses ++ [t] } else n
  else nodes ++ [⟨b, [t], []⟩]

/-- One interface in the loop of `AddBufferGraphNodes`: external buffers are skipped, a buffer of
another division is an error. -/
def addIface (div : TaskDivision) (t : Nat) (nodes : List BufferNode) :
    BufferRef → Option (List BufferNode)
  | .foreign external => if external then some nodes else none
  | .own i => match div.buffers[i]? with
    | some b => if b.external then some nodes else some (addAccess nodes i t)
    | none => none

/-- `AddBufferGraphNodes`: a node for every non-external buffer the tasks access, in the order of
their first accesses. -/
def addBufferGraphNodes (div : TaskDivision) : Option (List BufferNode) :=
  div.tasks.foldlM (fun nodes task => task.ifaces.foldlM (addIface div task.id) nodes) []

/-- Some node stands for buffer `b` and holds task `t` among its accesses. -/
def Covers (nodes : List BufferNode) (b t : Nat) : Prop :=
  ∃ n ∈ nodes, n.buffer = b ∧ t ∈ n.accesses

/-- The nodes stand for distinct non-external buffers of the division. -/
structure NodesWf (div : TaskDivision) (nodes : List BufferNode) : Prop where
  nodup : (nodes.map (·.buffer)).Nodup
  own : ∀ n ∈ nodes, ∃ bf, div.buffers[n.buffer]? = some bf ∧ bf.external = false

/-- What a step of `AddBufferGraphNodes` keeps: the invariant, and every access recorded. -/
def Extends (div : TaskDivision) (nodes nodes' : List BufferNode) : Prop :=
  (NodesWf div nodes → NodesWf div nodes') ∧ ∀ b t, Covers nodes b t → Covers nodes' b t

section Nodes

variable {div : TaskDivision} {nodes nodes' : List BufferNode} {b t : Nat}

theorem Extends.refl (nodes : List BufferNode) : Extends div nodes nodes :=
  ⟨id, fun _ _ => id⟩

theorem Extends.trans {nodes'' : List BufferNode} (h : Extends div nodes nodes')
    (h' : Extends div nodes' nodes'') : Extends div nodes nodes'' :=
  ⟨h'.1 ∘ h.1, fun b t => h'.2 b t ∘ h.2 b t⟩

theorem covers_addAccess (nodes : List BufferNode) (b t : Nat) :
    Covers (addAccess nodes b t) b t := by
  unfold addAccess
  split
  · obtain ⟨n, hn, hb⟩ := List.any_eq_true.1 ‹_›
    exact ⟨_, List.mem_map_of_mem _ hn, by simp_all⟩
  · exact ⟨_, List.mem_append_right _ (List.mem_singleton_self _), rfl, List.mem_singleton_self _⟩

theorem Covers.addAccess {b' t' : Nat} (h : Covers nodes b' t') :
    Covers (addAccess nodes b t) b' t' := by
  obtain ⟨n, hn, rfl, ht⟩ := h
  unfold BufferAllocation.addAccess
  split
  · exact ⟨_, List.mem_map_of_mem _ hn, by split <;> simp_all⟩
  · exact ⟨n, List.mem_append_left _ hn, rfl, ht⟩

theorem NodesWf.addAccess (hw : NodesWf div nodes) {bf : Buffer} (hb : div.buffers[b]? = some bf)
    (hx : bf.external = false) : NodesWf div (addAccess nodes b t) := by
  unfold BufferAllocation.addAccess
  split
  · have hbuf : ∀ n : BufferNode, (if n.buffer = b then { n with accesses := n.accesses ++ [t] }
        else n).buffer = n.buffer := fun n => by split <;> rfl
    refine ⟨by simpa only [List.map_map, Function.comp_def, hbuf] using hw.nodup, ?_⟩
    simp only [List.mem_map]
    rintro _ ⟨n, hn, rfl⟩
    simpa only [hbuf] using hw.own n hn
  · rename_i hany
    refine ⟨?_, ?_⟩
    · simpa using hw.nodup.concat (by simpa using hany)
    · simp only [List.mem_append, List.mem_singleton]
      rintro n (hn | rfl)
      · exact hw.own n hn
      · exact ⟨bf, hb, hx⟩

theorem addIface_extends {r : BufferRef} (h : addIface div t nodes r = some nodes') :
    Extends div nodes nodes' := by
  cases r with
  | foreign e =>
    cases e
    · cases h
    · cases h; exact Extends.refl _
  | own i =>
    simp only [addIface] at h
    split at h
    · split at h <;> cases h
      · exact Extends.refl _
      · rename_i hb hx
        exact ⟨fun hw => hw.addAccess hb (by simpa using hx), fun _ _ hc => hc.addAccess⟩
    · cases h

theorem covers_of_addIface {i : Nat} {bf : Buffer} (h : addIface div t nodes (.own i) = some nodes')
    (hb : div.buffers[i]? = some bf) (hx : bf.external = false) : Covers nodes' i t := by
  simp only [addIface, hb, hx, Bool.false_eq_true, if_false, Option.some.injEq] at h
  exact h ▸ covers_addAccess nodes i t

/-- `AddBufferGraphNodes` records every access of the tasks to the non-external buffers of the
division, with one node for each buffer. -/
theorem addBufferGraphNodes_spec (h : addBufferGraphNodes div = some nodes) :
    NodesWf div nodes ∧ ∀ b t bf, div.Accesses b t → div.buffers[b]? = some bf →
      bf.external = false → Covers nodes b t := by
  have hifaces := fun t : Nat => @foldlM_extends _ _ (Extends div) (addIface div t)
    Extends.refl (fun h h' => h.trans h') fun _ _ _ => addIface_extends
  obtain ⟨hR, hmem⟩ := foldlM_extends (R := Extends div) Extends.refl (fun h h' => h.trans h')
    (fun _ task _ h => (hifaces task.id h).1) h
  refine ⟨hR.1 ⟨List.nodup_nil, by simp⟩, ?_⟩
  rintro b t bf ⟨task, htask, rfl, hr⟩ hb hx
  obtain ⟨s₁, s₂, h₁, h₂⟩ := hmem task htask
  obtain ⟨s₃, s₄, h₃, h₄⟩ := (hifaces task.id h₁).2 _ hr
  exact h₂.2 _ _ (h₄.2 _ _ (covers_of_addIface h₃ hb hx))

/-- A node holds every task accessing its buffer. -/
theorem NodesWf.mem_accesses (hw : NodesWf div nodes)
    (hc : ∀ b t bf, div.Accesses b t → div.buffers[b]? = some bf → bf.external = false →
      Covers nodes b t) {n : BufferNode} (hn : n ∈ nodes) (ht : div.Accesses n.buffer t) :
    t ∈ n.accesses := by
  obtain ⟨bf, hb, hx⟩ := hw.own n hn
  obtain ⟨n', hn', hb', ht'⟩ := hc _ _ bf ht hb hx
  rwa [List.inj_on_of_nodup_map hw.nodup hn' hn hb'] at ht'

end Nodes

/-- `succCounts[t]`: `ElementCount` of row `t` of the matrix, an `ItemSet` over the tasks whose
positions are the task indices. It counts the tasks of the row in the lower half of their word
(`ItemSet.elementCount_eq_lowHalfCount`), not all of them. -/
def succCount (reach : List (List Bool)) (t : Nat) : Nat := ItemSet.lowHalfCount (reach.getD t [])

/-- The test of the second loop of `FillLastAccesses`: an access that reaches none of the last
accesses chosen so far is one more. -/
def addIfLast (reach : List (List Bool)) (la : List Nat) (a : Nat) : List Nat :=
  if la.any (contains (reach.getD a [])) then la else la ++ [a]

/-- `FillLastAccesses` for one node: its accesses in the order of the tasks, sorted by their
numbers of successors (`std::sort` leaves the order of ties unspecified; the model keeps them in
place), then all those with the fewest successors and each later one that reaches none chosen so
far. A node without accesses would read past the end. -/
def lastAccessesOf (reach : List (List Bool)) (tasks : List Task) (n : BufferNode) :
    Option (List Nat) :=
  let count := succCount reach
  match ((tasks.map (·.id)).filter (· ∈ n.accesses)).insertionSort (count · ≤ count ·) with
  | [] => none
  | a :: rest => some ((rest.dropWhile (count · = count a)).foldl (addIfLast reach)
      (a :: rest.takeWhile (count · = count a)))

/-- `FillLastAccesses`. -/
def fillLastAccesses (reach : List (List Bool)) (tasks : List Task) (nodes : List BufferNode) :
    Option (List BufferNode) :=
  nodes.mapM fun n => (lastAccessesOf reach tasks n).map fun la => { n with lastAccesses := la }

/-- Every access of a node that is not one of its last accesses reaches one of them. -/
def LastAccessesDominate (reach : List (List Bool)) (tasks : List Task) (n : BufferNode) : Prop :=
  ∀ a ∈ tasks.map (·.id), a ∈ n.accesses →
    a ∈ n.lastAccesses ∨ ∃ l ∈ n.lastAccesses, contains (reach.getD a []) l = true

section LastAccesses

variable {reach : List (List Bool)} {tasks : List Task}

/-- The second loop of `FillLastAccesses` keeps what it has chosen, and each access it passes is
chosen or reaches a chosen one. -/
theorem foldl_addIfLast (reach : List (List Bool)) : ∀ (rest la : List Nat),
    (∀ l ∈ la, l ∈ rest.foldl (addIfLast reach) la) ∧
    ∀ a ∈ rest, a ∈ rest.foldl (addIfLast reach) la ∨
      ∃ l ∈ rest.foldl (addIfLast reach) la, contains (reach.getD a []) l = true
  | [], _ => ⟨fun _ h => h, by simp⟩
  | a :: rest, la => by
    obtain ⟨hsub, hrest⟩ := foldl_addIfLast reach rest (addIfLast reach la a)
    have hla : ∀ l ∈ la, l ∈ addIfLast reach la a := by
      unfold addIfLast
      split
      · exact fun _ h => h
      · exact fun _ h => List.mem_append_left _ h
    refine ⟨fun l hl => hsub l (hla l hl), fun x hx => ?_⟩
    rcases List.mem_cons.1 hx with rfl | hx
    · by_cases hany : la.any (contains (reach.getD x [])) = true
      · obtain ⟨l, hl, hc⟩ := List.any_eq_true.1 hany
        exact .inr ⟨l, hsub l (hla l hl), hc⟩
      · have hadd : addIfLast reach la x = la ++ [x] := if_neg hany
        exact .inl (hsub x (hadd ▸ List.mem_append_right _ (List.mem_singleton_self x)))
    · exact hrest x hx

theorem lastAccessesOf_dominate {n : BufferNode} {la : List Nat}
    (h : lastAccessesOf reach tasks n = some la) :
    LastAccessesDominate reach tasks { n with lastAccesses := la } := by
  intro a ha hacc
  dsimp only [lastAccessesOf] at h
  split at h
  · cases h
  · rename_i a0 rest hsort
    cases h
    have hmem : a ∈ a0 :: rest :=
      hsort ▸ (List.perm_insertionSort _ _).mem_iff.2 (List.mem_filter.2 ⟨ha, by simpa using hacc⟩)
    let p := fun x => decide (succCount reach x = succCount reach a0)
    obtain ⟨hsub, hrest⟩ := foldl_addIfLast reach (rest.dropWhile p) (a0 :: rest.takeWhile p)
    rcases List.mem_cons.1 hmem with rfl | hmem
    · exact .inl (hsub _ (List.mem_cons_self _ _))
    · rw [← List.takeWhile_append_dropWhile p rest] at hmem
      rcases List.mem_append.1 hmem with h1 | h2
      · exact .inl (hsub _ (List.mem_cons_of_mem _ h1))
      · exact hrest _ h2

/-- `FillLastAccesses` keeps each node's buffer and accesses, and gives it last accesses that
dominate them. -/
theorem fillLastAccesses_spec {nodes nodes' : List BufferNode}
    (h : fillLastAccesses reach tasks nodes = some nodes') (k : Nat) {n' : BufferNode}
    (hk : nodes'[k]? = some n') :
    ∃ n, nodes[k]? = some n ∧ n'.buffer = n.buffer ∧ n'.accesses = n.accesses ∧
      LastAccessesDominate reach tasks n' := by
  rw [getElem?_mapM h k] at hk
  cases hn : nodes[k]? with
  | none => simp [hn] at hk
  | some n =>
    simp only [hn, Option.some_bind, Option.map_eq_some'] at hk
    obtain ⟨la, hla, rfl⟩ := hk
    exact ⟨n, rfl, rfl, rfl, lastAccessesOf_dominate hla⟩

end LastAccesses

/-- `AllBefore`: every last access of `n1` reaches every access of `n2`. -/
def allBefore (reach : List (List Bool)) (n1 n2 : BufferNode) : Bool :=
  n1.lastAccesses.all fun pt => n2.accesses.all (contains (reach.getD pt []))

/-- `HasConflicts`. -/
def hasConflicts (reach : List (List Bool)) (n1 n2 : BufferNode) : Bool :=
  !(allBefore reach n1 n2 || allBefore reach n2 n1)

/-- `AddBufferGraphEdges`: an edge from each node to each later one it conflicts with. -/
def addBufferGraphEdges (reach : List (List Bool)) (nodes : List BufferNode) : List (Nat × Nat) :=
  (List.range nodes.length).flatMap fun i => ((List.range nodes.length).filter fun j =>
    i < j && hasConflicts reach (nodes.getD i default) (nodes.getD j default)).map (i, ·)

/-- `BuildBufferGraph`: the nodes, with their last accesses, and the edges. -/
def buildBufferGraph (reach : List (List Bool)) (div : TaskDivision) :
    Option (List BufferNode × List (Nat × Nat)) := do
  let nodes ← addBufferGraphNodes div
  let nodes ← fillLastAccesses reach div.tasks nodes
  pure (nodes, addBufferGraphEdges reach nodes)

section Graph

variable {reach : List (List Bool)} {nodes : List BufferNode}

theorem mem_addBufferGraphEdges {i j : Nat} (hij : i < j) (hj : j < nodes.length)
    (hc : hasConflicts reach (nodes.getD i default) (nodes.getD j default) = true) :
    (i, j) ∈ addBufferGraphEdges reach nodes := by
  simp only [addBufferGraphEdges, List.mem_flatMap, List.mem_range, List.mem_map, List.mem_filter,
    Prod.mk.injEq]
  exact ⟨i, by omega, j, ⟨hj, by simpa [hij] using hc⟩, rfl, rfl⟩

/-- Two nodes not joined by an edge do not conflict: one is all before the other. -/
theorem allBefore_of_not_adjacent {k1 k2 : Nat} {n1 n2 : BufferNode} (hk : k1 ≠ k2)
    (h1 : nodes[k1]? = some n1) (h2 : nodes[k2]? = some n2)
    (h12 : (k1, k2) ∉ addBufferGraphEdges reach nodes)
    (h21 : (k2, k1) ∉ addBufferGraphEdges reach nodes) :
    allBefore reach n1 n2 = true ∨ allBefore reach n2 n1 = true := by
  have hl1 := (List.getElem?_eq_some_iff.1 h1).1
  have hl2 := (List.getElem?_eq_some_iff.1 h2).1
  rcases Nat.lt_or_gt_of_ne hk with hlt | hlt
  · have := mt (mem_addBufferGraphEdges hlt hl2) h12
    simp only [List.getD_eq_getElem?_getD, h1, h2, Option.getD_some, hasConflicts] at this
    simpa [or_iff_not_imp_left] using this
  · have := mt (mem_addBufferGraphEdges hlt hl1) h21
    simp only [List.getD_eq_getElem?_getD, h1, h2, Option.getD_some, hasConflicts] at this
    simpa [or_iff_not_imp_right] using this

/-- If all last accesses of `n1` reach every access of `n2`, every access of `n1` precedes every
access of `n2`. -/
theorem allBefore_precedes {g : TaskGraph} {tasks : List Task} {n1 n2 : BufferNode}
    (hs : Sound g reach) (hd : LastAccessesDominate reach tasks n1)
    (hab : allBefore reach n1 n2 = true) {t1 t2 : Nat} (ht1 : t1 ∈ tasks.map (·.id))
    (h1 : t1 ∈ n1.accesses) (h2 : t2 ∈ n2.accesses) : g.Precedes t1 t2 := by
  simp only [allBefore, List.all_eq_true] at hab
  rcases hd t1 ht1 h1 with hl | ⟨l, hl, hc⟩
  · exact hs _ _ (hab t1 hl t2 h2)
  · exact .trans (hs _ _ hc) (hs _ _ (hab l hl t2 h2))

theorem buildBufferGraph_eq_some {div : TaskDivision} {edges : List (Nat × Nat)}
    (h : buildBufferGraph reach div = some (nodes, edges)) :
    ∃ nodes0, addBufferGraphNodes div = some nodes0 ∧
      fillLastAccesses reach div.tasks nodes0 = some nodes ∧
      edges = addBufferGraphEdges reach nodes := by
  simp only [buildBufferGraph, Option.bind_eq_bind, Option.bind_eq_some, Option.pure_def,
    Option.some.injEq, Prod.mk.injEq] at h
  obtain ⟨nodes0, h0, nodes1, h1, rfl, rfl⟩ := h
  exact ⟨nodes0, h0, h1, rfl⟩

end Graph

/-- `EdgeCount`: in-edges and out-edges. -/
def edgeCount (edges : List (Nat × Nat)) (n : Nat) : Int :=
  (edges.filter (·.2 = n)).length + (edges.filter (·.1 = n)).length

/-- The entries at `i` and `j` trade places. -/
def swapAt (l : List Nat) (i j : Nat) : List Nat := (l.set i (l.getD j 0)).set j (l.getD i 0)

/-- `std::partial_sort(it, it+1, itend)` over the reversed prefix of `order` that ends at `pos`,
as libstdc++'s `__heap_select` does it: the entry at `pos` trades places with each earlier one,
scanned backwards, that has fewer edges. -/
def selectFewest (counts : List Int) (pos : Nat) (order : List Nat) : List Nat :=
  (List.range pos).reverse.foldl (fun order i =>
    if counts.getD (order.getD i 0) 0 < counts.getD (order.getD pos 0) 0 then swapAt order pos i
    else order) order

/-- The neighbours of the node just placed lose an edge each. -/
def removeNodeCounts (edges : List (Nat × Nat)) (counts : List Int) (n : Nat) : List Int :=
  counts.mapIdx fun k c =>
    c - ((edges.filter (· = (k, n))).length + (edges.filter (· = (n, k))).length)

/-- The first step of `AllocateBuffers`: from the back, each position takes the node with the
fewest edges among those not yet placed, which then leaves the graph. -/
def coloringOrder (edges : List (Nat × Nat)) (count : Nat) : List Nat :=
  ((List.range count).reverse.foldl (fun (order, counts) pos =>
      let order := selectFewest counts pos order
      (order, removeNodeCounts edges counts (order.getD pos 0)))
    (List.range count, (List.range count).map (edgeCount edges))).1

/-- The colouring: `pFinalBuffer` of each node and the list of new buffers. -/
structure ColorState where
  finalBuffer : List (Option Nat)
  newbuffers : List Buffer
  deriving DecidableEq, Repr

/-- The nodes joined to `n` by an out-edge or an in-edge. -/
def neighbours (edges : List (Nat × Nat)) (n : Nat) : List Nat :=
  (edges.filter (·.1 = n)).map (·.2) ++ (edges.filter (·.2 = n)).map (·.1)

/-- `valid`: the new buffers no neighbour of `n` is relocated to. -/
def isValid (edges : List (Nat × Nat)) (st : ColorState) (n c : Nat) : Bool :=
  (neighbours edges n).all fun m => st.finalBuffer[m]? ≠ some (some c)

/-- `nodecmp`: the new buffer closest in size first. The second criterion compares two iterators
into different `std::deque`s of `bufferaccesses`, whose order is unspecified (`proximityLess`);
being a `bool`, it never counts as less in `MultiCritCmp`. -/
def nodecmp (proximityLess : Nat → Nat → Bool) (newbuffers : List Buffer) (refsize : Int)
    (c1 c2 : Nat) : Bool :=
  multiCritLess [((newbuffers.getD c1 default).size - refsize).natAbs -
      ((newbuffers.getD c2 default).size - refsize).natAbs, if proximityLess c1 c2 then 1 else 0]

/-- The proximity criterion never decides: `nodecmp` compares the distances in size alone. -/
theorem nodecmp_eq (proximityLess : Nat → Nat → Bool) (newbuffers : List Buffer) (refsize : Int)
    (c1 c2 : Nat) : nodecmp proximityLess newbuffers refsize c1 c2 =
      decide (((newbuffers.getD c1 default).size - refsize).natAbs <
        ((newbuffers.getD c2 default).size - refsize).natAbs) := by
  unfold nodecmp multiCritLess
  generalize ((newbuffers.getD c1 default).size - refsize).natAbs = x
  generalize ((newbuffers.getD c2 default).size - refsize).natAbs = y
  by_cases h : (x : Int) - y = 0 <;> cases proximityLess c1 c2 <;> simp [List.find?, h] <;> omega

/-- One node of the second step of `AllocateBuffers`: the best valid new buffer, grown to the
node's size, or else a new copy of the node's buffer. -/
def colorNode (proximityLess : Nat → Nat → Bool) (buffers : List Buffer) (nodes : List BufferNode)
    (edges : List (Nat × Nat)) (st : ColorState) (n : Nat) : ColorState :=
  let b := buffers.getD (nodes.getD n default).buffer default
  match minElementIf (isValid edges st n) (nodecmp proximityLess st.newbuffers b.size)
      (List.range st.newbuffers.length) with
  | none => ⟨st.finalBuffer.set n (some st.newbuffers.length), st.newbuffers ++ [b]⟩
  | some c =>
    let t := st.newbuffers.getD c default
    ⟨st.finalBuffer.set n (some c), st.newbuffers.set c { t with size := max t.size b.size }⟩

/-- The second step of `AllocateBuffers`, over the nodes in `order`. -/
def colorNodes (proximityLess : Nat → Nat → Bool) (buffers : List Buffer) (nodes : List BufferNode)
    (edges : List (Nat × Nat)) (order : List Nat) : ColorState :=
  order.foldl (colorNode proximityLess buffers nodes edges) ⟨nodes.map fun _ => none, []⟩

theorem getElem?_set_eq_some {α : Type} {l : List α} {n k : Nat} {v w : α}
    (h : (l.set n v)[k]? = some w) : (k = n ∧ v = w) ∨ (k ≠ n ∧ l[k]? = some w) := by
  rw [List.getElem?_set] at h
  split_ifs at h with h1 <;> simp_all [eq_comm]

/-- What the colouring keeps: colours are new buffers, no edge joins two nodes of one colour, and
each new buffer is as large as every node's buffer coloured with it. -/
structure ColorInv (buffers : List Buffer) (nodes : List BufferNode) (edges : List (Nat × Nat))
    (st : ColorState) : Prop where
  lt : ∀ (k c : Nat), st.finalBuffer[k]? = some (some c) → c < st.newbuffers.length
  apart : ∀ (k l c : Nat), k ≠ l → st.finalBuffer[k]? = some (some c) → st.finalBuffer[l]? = some (some c) →
    (k, l) ∉ edges
  fits : ∀ (k c : Nat), st.finalBuffer[k]? = some (some c) →
    (buffers.getD (nodes.getD k default).buffer default).size ≤ (st.newbuffers.getD c default).size

section Coloring

variable {proximityLess : Nat → Nat → Bool} {buffers : List Buffer} {nodes : List BufferNode}
  {edges : List (Nat × Nat)} {st : ColorState}

/-- A valid colour is the colour of no node joined to `n`. -/
theorem isValid_spec {n c m : Nat} (h : isValid edges st n c = true)
    (hm : (n, m) ∈ edges ∨ (m, n) ∈ edges) : st.finalBuffer[m]? ≠ some (some c) := by
  simp only [isValid, List.all_eq_true, decide_eq_true_eq] at h
  apply h m
  rcases hm with hm | hm
  · exact List.mem_append_left _ (List.mem_map.2 ⟨_, List.mem_filter.2 ⟨hm, by simp⟩, rfl⟩)
  · exact List.mem_append_right _ (List.mem_map.2 ⟨_, List.mem_filter.2 ⟨hm, by simp⟩, rfl⟩)

theorem ColorInv.colorNode (hi : ColorInv buffers nodes edges st) (n : Nat) :
    ColorInv buffers nodes edges (colorNode proximityLess buffers nodes edges st n) := by
  dsimp only [BufferAllocation.colorNode]
  split
  · -- a new buffer, copied from the node's
    refine ⟨fun k c hk => ?_, fun k l c hkl hk hl => ?_, fun k c hk => ?_⟩
    · rcases getElem?_set_eq_some hk with ⟨-, hc⟩ | ⟨-, hk⟩
      · simp_all
      · simpa using Nat.lt_succ_of_lt (hi.lt k c hk)
    · rcases getElem?_set_eq_some hk with ⟨rfl, hc⟩ | ⟨-, hk'⟩ <;>
        rcases getElem?_set_eq_some hl with ⟨rfl, hc'⟩ | ⟨-, hl'⟩
      · exact absurd rfl hkl
      · cases hc; exact absurd (hi.lt l _ hl') (lt_irrefl _)
      · cases hc'; exact absurd (hi.lt k _ hk') (lt_irrefl _)
      · exact hi.apart k l c hkl hk' hl'
    · rcases getElem?_set_eq_some hk with ⟨rfl, hc⟩ | ⟨-, hk⟩
      · cases hc; simp
      · have hlt := hi.lt k c hk
        simpa [List.getElem?_append_left hlt] using hi.fits k c hk
  · -- an existing buffer, grown to the node's size
    rename_i c hsel
    obtain ⟨hc, hv⟩ := minElementIf_mem hsel
    have hc : c < st.newbuffers.length := List.mem_range.1 hc
    refine ⟨fun k c' hk => ?_, fun k l c' hkl hk hl => ?_, fun k c' hk => ?_⟩
    · rcases getElem?_set_eq_some hk with ⟨-, hc'⟩ | ⟨-, hk⟩
      · cases hc'; simpa using hc
      · simpa using hi.lt k c' hk
    · rcases getElem?_set_eq_some hk with ⟨rfl, hc'⟩ | ⟨-, hk'⟩ <;>
        rcases getElem?_set_eq_some hl with ⟨rfl, hc''⟩ | ⟨-, hl'⟩
      · exact absurd rfl hkl
      · cases hc'; exact fun he => isValid_spec hv (.inl he) hl'
      · cases hc''; exact fun he => isValid_spec hv (.inr he) hk'
      · exact hi.apart k l c' hkl hk' hl'
    · have hfit : ∀ c'', (st.newbuffers.getD c'' default).size ≤
          ((st.newbuffers.set c { st.newbuffers.getD c default with
            size := max (st.newbuffers.getD c default).size
              (buffers.getD (nodes.getD n default).buffer default).size }).getD c'' default).size := by
        intro c''
        rcases eq_or_ne c c'' with rfl | he
        · simp [List.getElem?_set, hc]
        · simp [List.getElem?_set, he]
      rcases getElem?_set_eq_some hk with ⟨rfl, hc'⟩ | ⟨-, hk⟩
      · cases hc'; simp [List.getElem?_set, hc]
      · exact (hi.fits k c' hk).trans (hfit c')

/-- The colouring keeps its invariant over any order of the nodes. -/
theorem colorInv_colorNodes (order : List Nat) :
    ColorInv buffers nodes edges (colorNodes proximityLess buffers nodes edges order) := by
  have h0 : ∀ k c : Nat, (nodes.map fun _ => (none : Option Nat))[k]? ≠ some (some c) := by
    intro k c
    simp only [List.getElem?_map]
    cases nodes[k]? <;> simp
  exact List.foldlRecOn (motive := ColorInv buffers nodes edges) _ _ _
    ⟨fun k c h => absurd h (h0 k c), fun k _ c _ h => absurd h (h0 k c),
      fun k c h => absurd h (h0 k c)⟩ fun _ h n _ => h.colorNode n

end Coloring

/-- `old2new`: each node's buffer is mapped to the node's final buffer. -/
def old2newOf (buffers : List Buffer) (nodes : List BufferNode) (finalBuffer : List (Option Nat)) :
    List (Option Nat) :=
  nodes.enum.foldl (fun m (k, n) => m.set n.buffer (finalBuffer.getD k none))
    (buffers.map fun _ => none)

/-- A buffer mapped to a final buffer is the buffer of a node with that final buffer. -/
theorem old2newOf_eq_some {buffers : List Buffer} {nodes : List BufferNode}
    {finalBuffer : List (Option Nat)} {b f : Nat}
    (h : (old2newOf buffers nodes finalBuffer)[b]? = some (some f)) :
    ∃ (k : Nat) (n : BufferNode), nodes[k]? = some n ∧ n.buffer = b ∧
      finalBuffer[k]? = some (some f) := by
  suffices ∀ (l : List (Nat × BufferNode)) (m : List (Option Nat)),
      (l.foldl (fun m (k, n) => m.set n.buffer (finalBuffer.getD k none)) m)[b]? = some (some f) →
      (∃ (k : Nat) (n : BufferNode), (k, n) ∈ l ∧ n.buffer = b ∧ finalBuffer.getD k none = some f) ∨
        m[b]? = some (some f) by
    rcases this _ _ h with ⟨k, n, hkn, hb, hf⟩ | hm
    · refine ⟨k, n, List.mem_enum_iff_getElem?.1 hkn, hb, ?_⟩
      rw [List.getD_eq_getElem?_getD] at hf
      revert hf
      cases finalBuffer[k]? <;> simp
    · simp only [List.getElem?_map] at hm
      cases buffers[b]? <;> simp at hm
  intro l
  induction l with
  | nil => exact fun _ h => .inr h
  | cons kn l ih =>
    intro m h
    rcases ih _ h with ⟨k, n, hkn, hb, hf⟩ | h'
    · exact .inl ⟨k, n, List.mem_cons_of_mem _ hkn, hb, hf⟩
    · rcases getElem?_set_eq_some h' with ⟨rfl, hv⟩ | ⟨-, hm⟩
      · exact .inl ⟨kn.1, kn.2, List.mem_cons_self _ _, rfl, hv⟩
      · exact .inr hm

/-- `RelocateBuffer`: a non-external buffer of the division moves to its final buffer, which it
must have; an external one is no longer one of the division's. -/
def relocate (buffers : List Buffer) (old2new : List (Option Nat)) : BufferRef → Option BufferRef
  | .own i => match buffers[i]? with
    | some b => if b.external then some (.foreign true) else (old2new.getD i none).map .own
    | none => none
  | .foreign external => some (.foreign external)

/-- `AllocateBuffers`: the division with its new buffers, and the map `old2new`. -/
def allocateBuffers (reach : List (List Bool)) (proximityLess : Nat → Nat → Bool)
    (div : TaskDivision) : Option (TaskDivision × List (Option Nat)) := do
  let (nodes, edges) ← buildBufferGraph reach div
  let st := colorNodes proximityLess div.buffers nodes edges (coloringOrder edges nodes.length)
  let old2new := old2newOf div.buffers nodes st.finalBuffer
  let tasks ← div.tasks.mapM fun task => do
    pure { task with ifaces := ← task.ifaces.mapM (relocate div.buffers old2new) }
  pure (⟨st.newbuffers, tasks⟩, old2new)

theorem allocateBuffers_eq_some {reach : List (List Bool)} {proximityLess : Nat → Nat → Bool}
    {div div' : TaskDivision} {old2new : List (Option Nat)}
    (h : allocateBuffers reach proximityLess div = some (div', old2new)) :
    ∃ nodes edges, buildBufferGraph reach div = some (nodes, edges) ∧
      div'.buffers = (colorNodes proximityLess div.buffers nodes edges
        (coloringOrder edges nodes.length)).newbuffers ∧
      old2new = old2newOf div.buffers nodes (colorNodes proximityLess div.buffers nodes edges
        (coloringOrder edges nodes.length)).finalBuffer := by
  simp only [allocateBuffers, Option.bind_eq_bind, Option.bind_eq_some, Option.pure_def,
    Option.some.injEq] at h
  obtain ⟨⟨nodes, edges⟩, hb, tasks, -, h⟩ := h
  cases h
  exact ⟨nodes, edges, hb, rfl, rfl⟩

/-- Buffer merging never merges buffers with overlapping lifetimes: of two buffers relocated to
one final buffer, every task accessing one is a transitive predecessor of every task accessing the
other; and every buffer fits into its final buffer. -/
theorem allocateBuffers_merges_disjoint_lifetimes {g : TaskGraph}
    {proximityLess : Nat → Nat → Bool} {div div' : TaskDivision} {old2new : List (Option Nat)}
    (h : allocateBuffers (pruneEdges g) proximityLess div = some (div', old2new)) :
    (∀ b1 b2 f : Nat, b1 ≠ b2 → old2new[b1]? = some (some f) → old2new[b2]? = some (some f) →
      (∀ t1 t2, div.Accesses b1 t1 → div.Accesses b2 t2 → g.Precedes t1 t2) ∨
        (∀ t1 t2, div.Accesses b1 t1 → div.Accesses b2 t2 → g.Precedes t2 t1)) ∧
    ∀ (b f : Nat) (bf : Buffer), old2new[b]? = some (some f) → div.buffers[b]? = some bf →
      ∃ nf, div'.buffers[f]? = some nf ∧ bf.size ≤ nf.size := by
  obtain ⟨nodes, edges, hbuild, hbufs, rfl⟩ := allocateBuffers_eq_some h
  obtain ⟨nodes0, hnodes0, hfill, rfl⟩ := buildBufferGraph_eq_some hbuild
  obtain ⟨hwf, hcov⟩ := addBufferGraphNodes_spec hnodes0
  have hinv := @colorInv_colorNodes proximityLess div.buffers nodes
    (addBufferGraphEdges (pruneEdges g) nodes)
    (coloringOrder (addBufferGraphEdges (pruneEdges g) nodes) nodes.length)
  -- a node holds every task accessing its buffer, and its last accesses dominate them
  have hnode : ∀ (k : Nat) (n : BufferNode), nodes[k]? = some n → LastAccessesDominate (pruneEdges g) div.tasks n ∧
      ∀ t, div.Accesses n.buffer t → t ∈ n.accesses := by
    intro k n hk
    obtain ⟨n0, hk0, hb, ha, hd⟩ := fillLastAccesses_spec hfill k hk
    refine ⟨hd, fun t ht => ha ▸ hwf.mem_accesses hcov (List.getElem?_mem hk0) (hb ▸ ht)⟩
  have htask : ∀ b t, div.Accesses b t → t ∈ div.tasks.map (·.id) :=
    fun _ _ ⟨task, htask, ht, _⟩ => ht ▸ List.mem_map_of_mem _ htask
  refine ⟨fun b1 b2 f hne h1 h2 => ?_, fun b f bf hb hbf => ?_⟩
  · obtain ⟨k1, n1, hk1, rfl, hf1⟩ := old2newOf_eq_some h1
    obtain ⟨k2, n2, hk2, rfl, hf2⟩ := old2newOf_eq_some h2
    have hk : k1 ≠ k2 := by
      rintro rfl
      exact hne (by rw [hk1] at hk2; cases hk2; rfl)
    rcases allBefore_of_not_adjacent hk hk1 hk2 (hinv.apart k1 k2 f hk hf1 hf2)
      (hinv.apart k2 k1 f hk.symm hf2 hf1) with hab | hab
    · exact .inl fun t1 t2 ht1 ht2 => allBefore_precedes (sound_pruneEdges g) (hnode k1 n1 hk1).1
        hab (htask _ _ ht1) ((hnode k1 n1 hk1).2 t1 ht1) ((hnode k2 n2 hk2).2 t2 ht2)
    · exact .inr fun t1 t2 ht1 ht2 => allBefore_precedes (sound_pruneEdges g) (hnode k2 n2 hk2).1
        hab (htask _ _ ht2) ((hnode k2 n2 hk2).2 t2 ht2) ((hnode k1 n1 hk1).2 t1 ht1)
  · obtain ⟨k, n, hk, rfl, hf⟩ := old2newOf_eq_some hb
    have hlt := hinv.lt k f hf
    refine ⟨_, by rw [hbufs]; exact List.getElem?_eq_getElem hlt, ?_⟩
    simpa [hk, hbf, List.getElem?_eq_getElem hlt] using hinv.fits k f hf

/-- Three tasks in a chain: the first two share buffer 0, the last two buffer 1, and the last
alone uses buffer 2. -/
def chainGraph : TaskGraph := ⟨3, [(0, 1), (1, 2)]⟩

def chainDivision : TaskDivision :=
  ⟨[⟨100, false⟩, ⟨200, false⟩, ⟨50, false⟩],
    [⟨0, [.own 0]⟩, ⟨1, [.own 0, .own 1]⟩, ⟨2, [.own 1, .own 2]⟩]⟩

/-- Buffers 0 and 2 are merged into a buffer of size 100, and buffer 0 is used before buffer 2. -/
theorem chainDivision_merged :
    allocateBuffers (pruneEdges chainGraph) (fun _ _ => false) chainDivision =
      some (⟨[⟨100, false⟩, ⟨200, false⟩],
        [⟨0, [.own 0]⟩, ⟨1, [.own 0, .own 1]⟩, ⟨2, [.own 1, .own 0]⟩]⟩, [some 0, some 1, some 0]) ∧
    ((∀ t1 t2, chainDivision.Accesses 0 t1 → chainDivision.Accesses 2 t2 →
        chainGraph.Precedes t1 t2) ∨
      (∀ t1 t2, chainDivision.Accesses 0 t1 → chainDivision.Accesses 2 t2 →
        chainGraph.Precedes t2 t1)) :=
  have h : allocateBuffers (pruneEdges chainGraph) (fun _ _ => false) chainDivision =
      some (⟨[⟨100, false⟩, ⟨200, false⟩],
        [⟨0, [.own 0]⟩, ⟨1, [.own 0, .own 1]⟩, ⟨2, [.own 1, .own 0]⟩]⟩, [some 0, some 1, some 0]) :=
    by decide
  ⟨h, (allocateBuffers_merges_disjoint_lifetimes h).1 0 2 0 (by decide) rfl rfl⟩

end BufferAllocation

end Ladybirds
