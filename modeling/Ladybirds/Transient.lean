import Ladybirds.Range
import Ladybirds.OptionTraversal
import Ladybirds.TopoSort

/-! # The execution order for transient computing

`EstablishExecutionOrder` weighs each pair of tasks by the data passed between them and schedules
greedily the heaviest ready successor. The weights are node maps of the task graph, indexed also
with the main task of the dependencies `LoadCSpec` leaves, which is no node.
-/

namespace Ladybirds

namespace Transient

open BufferAllocation (TaskGraph)

/-- The task of an interface: the main task, or node `i` of the task graph. -/
inductive TaskRef where
  | main
  | node (i : Nat)
  deriving DecidableEq, Repr

/-- The fields of a `spec::Dependency` the pass reads: its source interface (a key) and the task
of it, the task of its target interface, its `From` index, and the size of the base type of the
source packet. -/
structure Dep where
  fromIface : Nat
  fromTask : TaskRef
  toTask : TaskRef
  fromIndex : Space
  baseSize : Int
  deriving DecidableEq, Repr

/-- `weights[a][b]`, row `a` and column `b` of the node map of node maps; `-1` where nothing was
added. -/
abbrev Weights := List (List Int)

/-- `addweigth(weights[a][b], add)`: a weight below 0 is replaced, another one increased. An
`ItemMap` maps the nodes of its graph: indexing it with the main task is undefined. -/
def addWeight (w : Weights) (a b : TaskRef) (add : Int) : Option Weights :=
  match a, b with
  | .node i, .node j => do
    let row ← w[i]?
    let old ← row[j]?
    pure (w.set i (row.set j (if old < 0 then add else old + add)))
  | _, _ => none

theorem addWeight_main_left (w : Weights) (b : TaskRef) (add : Int) :
    addWeight w .main b add = none := rfl

theorem addWeight_main_right (w : Weights) (a : TaskRef) (add : Int) :
    addWeight w a .main add = none := by
  cases a <;> rfl

/-- `GetOutDeps`: the dependencies grouped by their source interface, each group in the order of
the dependencies (the groups in the order of their first dependency). -/
def outDeps (deps : List Dep) : List (List Dep) :=
  (deps.map (·.fromIface)).dedup.map fun f => deps.filter (·.fromIface = f)

/-- The inner loops over one group: for each dependency and each earlier one to another task,
the volume of the cells both take from the interface weighs the pair both ways. -/
def groupWeights (w : Weights) (deps : List Dep) : Option Weights :=
  (List.range deps.length).foldlM (fun w k =>
    (List.range k).foldlM (fun w k2 =>
      let d := deps.getD k ⟨0, .main, .main, [], 0⟩
      let d2 := deps.getD k2 ⟨0, .main, .main, [], 0⟩
      if d.toTask = d2.toTask then some w
      else
        let weight := Space.volume (Space.inter d.fromIndex d2.fromIndex) * d.baseSize
        addWeight w d.toTask d2.toTask weight >>= fun w => addWeight w d2.toTask d.toTask weight)
      w) w

/-- `ScheduleNodes(t)`: the successors of `t` lose a predecessor and `t` is marked done; then
every task in the order of the priority queue, heaviest for `t` first, until one of negative
weight, is scheduled and recursed into if all its predecessors are done. Ties between equal
weights leave the queue in an order the source leaves open; here it is the order of the nodes.
`fuel` bounds the depth of the recursion. -/
def scheduleNodes (edges : List (Nat × Nat)) (w : Weights) (alltasks : List Nat) :
    Nat → Nat → List Int × List Nat → Option (List Int × List Nat)
  | 0, _, _ => none
  | fuel + 1, t, (depctr, order) =>
    let depctr := ((edges.filter (·.1 = t)).foldl (fun dc e => dc.modify (· - 1) e.2) depctr).set t (-1)
    let tw := w.getD t []
    let cands := (alltasks.mergeSort fun a b => tw.getD b (-1) ≤ tw.getD a (-1)).takeWhile
      fun c => 0 ≤ tw.getD c (-1)
    cands.foldlM (fun (st : List Int × List Nat) c =>
      if st.1.getD c 0 ≠ 0 then some st
      else scheduleNodes edges w alltasks fuel c (st.1, st.2 ++ [c])) (depctr, order)

/-- `EstablishExecutionOrder`: the order in which `ReorderNodes` then lays out the task graph. The
root is node `g.nodes`. -/
def establishExecutionOrder (g : TaskGraph) (deps : List Dep) : Option (List Nat) := do
  let root := g.nodes
  let w0 : Weights := List.replicate (g.nodes + 1) (List.replicate (g.nodes + 1) (-1))
  let w ← deps.foldlM (fun w d =>
    addWeight w d.fromTask d.toTask (Space.volume d.fromIndex * d.baseSize)) w0
  let w ← (outDeps deps).foldlM groupWeights w
  let sources := (List.range g.nodes).filter fun v => g.inEdgeCount v = 0
  let tg : TaskGraph := ⟨g.nodes + 1, g.edges ++ sources.map (root, ·)⟩
  let w := sources.foldl (fun w v => w.modify (·.set v 0) root) w
  let depctr := (List.range tg.nodes).map fun v => (tg.inEdgeCount v : Int)
  let r ← scheduleNodes tg.edges w (List.range tg.nodes) (g.nodes + 2) root (depctr, [])
  pure r.2

/-- The first loop over the dependencies indexes the weights with the tasks of each dependency,
so a program with a dependency from or to the main task has no defined execution order. -/
theorem establishExecutionOrder_main_eq_none (g : TaskGraph) {deps : List Dep} {d : Dep}
    (hd : d ∈ deps) (hmain : d.fromTask = .main ∨ d.toTask = .main) :
    establishExecutionOrder g deps = none := by
  have hfail : ∀ w, addWeight w d.fromTask d.toTask (Space.volume d.fromIndex * d.baseSize) = none := by
    intro w
    rcases hmain with h | h
    · rw [h, addWeight_main_left]
    · rw [h, addWeight_main_right]
  simp only [establishExecutionOrder, @foldlM_eq_none_of_mem Weights Dep (fun w d =>
    addWeight w d.fromTask d.toTask (Space.volume d.fromIndex * d.baseSize)) d deps hd hfail,
    Option.bind_eq_bind, Option.none_bind]

/-- One task reading an input of the program and writing an output: the dependencies from and
to the main task that `LoadCSpec` leaves. -/
def copyProgram : TaskGraph × List Dep :=
  (⟨1, []⟩, [⟨0, .main, .node 0, [Range.beginEnd 0 4 (by decide)], 4⟩,
    ⟨1, .node 0, .main, [Range.beginEnd 0 4 (by decide)], 4⟩])

theorem establishExecutionOrder_copyProgram :
    (⟨0, .main, .node 0, [Range.beginEnd 0 4 (by decide)], 4⟩ : Dep) ∈ copyProgram.2 ∧
      establishExecutionOrder copyProgram.1 copyProgram.2 = none :=
  ⟨List.mem_cons_self _ _,
    establishExecutionOrder_main_eq_none _ (List.mem_cons_self _ _) (.inl rfl)⟩

end Transient

end Ladybirds
