import Ladybirds.OccupationChart

/-! # Reverse list scheduling

`Schedule::CalcAlap` runs `ReverseListScheduling`, which places the task nodes backwards from the
sinks into the cleared per-processor charts `CoreOccs_`, before any `ListScheduling` run.
-/

namespace Ladybirds

namespace Schedule

/-- The fields of `Schedule::Tasknode` the list schedulers use. -/
structure Tasknode where
  duration : Int
  alap : Int
  start : Int
  openDependencies : Int
  processors : List Nat
  deriving DecidableEq, Repr

structure Taskgraph where
  nodes : List Tasknode
  edges : List (Nat × Nat)
  deriving DecidableEq, Repr

namespace Taskgraph

def outEdgeCount (g : Taskgraph) (n : Nat) : Nat := g.edges.countP (·.1 = n)

def inEdgeCount (g : Taskgraph) (n : Nat) : Nat := g.edges.countP (·.2 = n)

/-- The sources of `InEdges()` of node `n`. -/
def inEdgeSources (g : Taskgraph) (n : Nat) : List Nat := (g.edges.filter (·.2 = n)).map Prod.fst

def modifyNode (g : Taskgraph) (n : Nat) (f : Tasknode → Tasknode) : Taskgraph :=
  { g with nodes := g.nodes.modify f n }

end Taskgraph

structure SchedulingItem where
  readyTime : Int
  priority : Int
  node : Nat
  deriving DecidableEq, Repr

/-- `SchedulingItem::operator<`: the later ready time, and at equal ready times the lower priority,
comes later out of the queue. -/
def SchedulingItem.lt (a b : SchedulingItem) : Bool :=
  if a.readyTime ≠ b.readyTime then a.readyTime > b.readyTime else a.priority < b.priority

/-- `std::priority_queue::top()`: a greatest item under `operator<`. Among equal items the heap
makes its own choice; the model takes the first. -/
def top : List SchedulingItem → Option SchedulingItem
  | [] => none
  | i :: is => some (is.foldl (fun m j => if m.lt j then j else m) i)

/-- The state `ReverseListScheduling` works on: the task graph, the ready list, the members
`CoreOccs_` and the count `lefttoschedule`. -/
structure State where
  graph : Taskgraph
  readylist : List SchedulingItem
  coreOccs : List (OccupationChart SingleOccupation)
  leftToSchedule : Nat

/-- The occupant `&tn` of node `n`. -/
def occupant (n : Nat) : SingleOccupation := ⟨some n⟩

/-- `for(auto cid : tn.Processors) sched = std::max(sched, CoreOccs_[cid].Available(sched,
tn.Duration, &tn));` -/
def earliestStart (occs : List (OccupationChart SingleOccupation)) (n : Nat) (tn : Tasknode)
    (ready : Int) : Option Int :=
  tn.processors.foldlM (fun sched cid => do
    let co ← occs[cid]?
    let a ← co.available sched tn.duration (occupant n)
    pure (max sched a)) ready

/-- `for(auto cid : tn.Processors) CoreOccs_[cid].Occupy(sched, endsched, &tn);`, whose results
are ignored. -/
def occupyProcessors (occs : List (OccupationChart SingleOccupation)) (n : Nat) (tn : Tasknode)
    (sched endsched : Int) : Option (List (OccupationChart SingleOccupation)) :=
  tn.processors.foldlM (fun occs cid => do
    let co ← occs[cid]?
    let r ← co.occupy sched endsched (occupant n)
    pure (occs.set cid r.2)) occs

/-- The loop over `tn.InEdges()`: each predecessor starts no earlier than `endsched` and is ready
once its last successor is placed. -/
def releasePredecessors (priority : Taskgraph → Nat → Int) (endsched : Int)
    (st : Taskgraph × List SchedulingItem) (pred : Nat) : Option (Taskgraph × List SchedulingItem) := do
  let p ← st.1.nodes[pred]?
  let p := { p with start := max p.start endsched, openDependencies := p.openDependencies - 1 }
  let g := st.1.modifyNode pred fun _ => p
  if p.openDependencies = 0 then pure (g, st.2 ++ [⟨p.start, priority g pred, pred⟩])
  else pure (g, st.2)

/-- One pass of the `while(!readylist.empty())` loop of `ReverseListScheduling` for the item
`next` at the top of the ready list. -/
def reverseStep (priority : Taskgraph → Nat → Int) (s : State) (next : SchedulingItem) :
    Option State := do
  let readylist := s.readylist.erase next
  let tn ← s.graph.nodes[next.node]?
  let sched ← earliestStart s.coreOccs next.node tn next.readyTime
  if (top readylist).any (·.readyTime < sched) then
    return { s with readylist := readylist ++ [⟨sched, next.priority, next.node⟩] }
  let endsched := sched + tn.duration
  let g := s.graph.modifyNode next.node fun tn =>
    { tn with start := -endsched, alap := if -endsched > tn.alap then -endsched else tn.alap }
  let coreOccs ← occupyProcessors s.coreOccs next.node tn sched endsched
  let (g, readylist) ← (g.inEdgeSources next.node).foldlM (releasePredecessors priority endsched)
    (g, readylist)
  -- `--lefttoschedule` on a `size_t`
  let left := if s.leftToSchedule = 0 then 2 ^ 64 - 1 else s.leftToSchedule - 1
  return ⟨g, readylist, coreOccs, left⟩

/-- The loop of `ReverseListScheduling`, for at most `fuel` passes. -/
def reverseLoop (priority : Taskgraph → Nat → Int) : Nat → State → Option State
  | 0, _ => none
  | fuel + 1, s =>
    match top s.readylist with
    | none => some s
    | some next => (reverseStep priority s next).bind (reverseLoop priority fuel)

/-- The initialisation of `ReverseListScheduling`: every node starts at 0 and waits for all its
successors, the sinks are ready, and the charts are cleared. -/
def reverseInit (priority : Taskgraph → Nat → Int) (g : Taskgraph)
    (coreOccs : List (OccupationChart SingleOccupation)) : State :=
  let g' := { g with nodes := g.nodes.mapIdx fun i n =>
    { n with start := 0, openDependencies := (g.outEdgeCount i : Int) } }
  ⟨g', (List.range g.nodes.length).filterMap
      (fun i => if g.outEdgeCount i = 0 then some ⟨0, priority g' i, i⟩ else none),
    coreOccs.map OccupationChart.clear, g.nodes.length⟩

/-- `ReverseListScheduling(priority)`: whether every node was placed, with the graph and the
charts it leaves. -/
def reverseListScheduling (priority : Taskgraph → Nat → Int) (fuel : Nat) (g : Taskgraph)
    (coreOccs : List (OccupationChart SingleOccupation)) :
    Option (Bool × Taskgraph × List (OccupationChart SingleOccupation)) :=
  (reverseLoop priority fuel (reverseInit priority g coreOccs)).map fun s =>
    (s.leftToSchedule = 0, s.graph, s.coreOccs)

/-- `CalcAlap()`: the four priority functions in turn until one run places every node; `rand`
gives the values `std::rand()` returns. -/
def calcAlap (rand : Taskgraph → Nat → Int) (fuel : Nat) (g : Taskgraph)
    (coreOccs : List (OccupationChart SingleOccupation)) :
    Option (Bool × Taskgraph × List (OccupationChart SingleOccupation)) := do
  let g := { g with nodes := g.nodes.map fun n => { n with alap := -infinite } }
  let r ← reverseListScheduling (fun g n => g.outEdgeCount n) fuel g coreOccs
  if r.1 then return r
  let r ← reverseListScheduling (fun g n => g.inEdgeCount n) fuel r.2.1 r.2.2
  if r.1 then return r
  let r ← reverseListScheduling rand fuel r.2.1 r.2.2
  if r.1 then return r
  reverseListScheduling (fun g n => -((g.nodes[n]?).map (·.alap)).getD 0) fuel r.2.1 r.2.2

open OccupationChart

theorem foldl_top_mem (i : SchedulingItem) :
    ∀ is : List SchedulingItem, is.foldl (fun m j => if m.lt j then j else m) i ∈ i :: is
  | [] => List.mem_singleton_self i
  | j :: is => by
    simp only [List.foldl_cons]
    split_ifs
    · exact List.mem_cons_of_mem _ (foldl_top_mem j is)
    · exact List.cons_subset_cons _ (List.subset_cons_self _ _) (foldl_top_mem i is)

theorem top_mem {l : List SchedulingItem} {x : SchedulingItem} (h : top l = some x) : x ∈ l := by
  cases l with
  | nil => cases h
  | cons i is => simp only [top, Option.some.injEq] at h; exact h ▸ foldl_top_mem i is

theorem top_isSome {l : List SchedulingItem} (h : l ≠ []) : ∃ x, top l = some x := by
  cases l with
  | nil => contradiction
  | cons i is => exact ⟨_, rfl⟩

variable {priority : Taskgraph → Nat → Int} {g : Taskgraph}
  {occs : List (OccupationChart SingleOccupation)}

theorem mem_reverseInit_readylist {x : SchedulingItem}
    (h : x ∈ (reverseInit priority g occs).readylist) :
    x.readyTime = 0 ∧ x.node < g.nodes.length := by
  simp only [reverseInit, List.mem_filterMap, List.mem_range] at h
  obtain ⟨i, hi, h⟩ := h
  split_ifs at h
  cases h
  exact ⟨rfl, hi⟩

theorem reverseInit_readylist_ne_nil (h : ∃ i < g.nodes.length, g.outEdgeCount i = 0) :
    (reverseInit priority g occs).readylist ≠ [] := by
  obtain ⟨i, hi, h0⟩ := h
  simp only [reverseInit, ne_eq, List.filterMap_eq_nil_iff, List.mem_range, not_forall]
  exact ⟨i, hi, by simp [h0]⟩

theorem reverseInit_node {i : Nat} {n : Tasknode} (h : g.nodes[i]? = some n) :
    ∃ tn, (reverseInit priority g occs).graph.nodes[i]? = some tn ∧
      tn.processors = n.processors := by
  simp [reverseInit, h]

theorem reverseInit_coreOccs (cid : Nat) :
    (reverseInit priority g occs).coreOccs[cid]? = (occs[cid]?).map clear := by
  simp [reverseInit]

theorem earliestStart_init {n : Nat} {tn : Tasknode}
    (h : ∀ cid ∈ tn.processors, ∃ cap, 1 ≤ cap ∧ occs[cid]? = some (init cap)) :
    earliestStart occs n tn 0 = some 0 := by
  unfold earliestStart
  generalize tn.processors = ps at h
  induction ps with
  | nil => rfl
  | cons cid ps ih =>
    obtain ⟨cap, hcap, hco⟩ := h cid (List.mem_cons_self _ _)
    have hroom : OccupationLevel.add (OccupationLevel.zero : SingleOccupation) (occupant n) ≤ cap :=
      hcap
    simpa [hco, available_init (Int.le_refl 0) hroom] using
      ih fun c hc => h c (List.mem_cons_of_mem _ hc)

theorem occupyProcessors_init {n cid : Nat} {tn : Tasknode} {cap sched endsched : Int}
    {ps : List Nat} (hps : tn.processors = cid :: ps) (hco : occs[cid]? = some (init cap)) :
    occupyProcessors occs n tn sched endsched = none := by
  simp [occupyProcessors, hps, hco, occupy_init_eq_none]

section Undefined

variable (hcap : ∀ co ∈ occs, 1 ≤ co.capacity)
  (hproc : ∀ n ∈ g.nodes, n.processors ≠ [] ∧ ∀ cid ∈ n.processors, cid < occs.length)
include hcap hproc

theorem reverseStep_init {next : SchedulingItem}
    (hnext : next ∈ (reverseInit priority g occs).readylist) :
    reverseStep priority (reverseInit priority g occs) next = none := by
  obtain ⟨h0, hlt⟩ := mem_reverseInit_readylist hnext
  obtain ⟨tn, htn, hps⟩ := @reverseInit_node priority g occs _ _ (List.getElem?_eq_getElem hlt)
  have hn := hproc _ (List.getElem_mem hlt)
  have hcleared : ∀ cid ∈ tn.processors, ∃ cap, 1 ≤ cap ∧
      (reverseInit priority g occs).coreOccs[cid]? = some (init cap) := fun cid hcid => by
    have hcid := hn.2 cid (hps ▸ hcid)
    exact ⟨_, hcap _ (List.getElem_mem hcid),
      by simp [reverseInit_coreOccs, List.getElem?_eq_getElem hcid, clear]⟩
  have hwait :
      (top ((reverseInit priority g occs).readylist.erase next)).any (·.readyTime < 0) = false := by
    cases htop : top ((reverseInit priority g occs).readylist.erase next) with
    | none => rfl
    | some x => simp [(mem_reverseInit_readylist (List.mem_of_mem_erase (top_mem htop))).1]
  obtain ⟨cid, ps, hcons⟩ := List.exists_cons_of_ne_nil (hps ▸ hn.1)
  obtain ⟨cap, -, hco⟩ := hcleared cid (hcons ▸ List.mem_cons_self _ _)
  simp [reverseStep, htn, h0, earliestStart_init hcleared, hwait, occupyProcessors_init hcons hco]

/-- On task graphs with a sink and a processor for every node, `ReverseListScheduling` is
undefined: its first pass places a sink at time 0 and `Occupy` on a cleared chart is undefined. -/
theorem reverseListScheduling_eq_none (hsink : ∃ i < g.nodes.length, g.outEdgeCount i = 0)
    (fuel : Nat) : reverseListScheduling priority (fuel + 1) g occs = none := by
  obtain ⟨next, htop⟩ := top_isSome (@reverseInit_readylist_ne_nil priority g occs hsink)
  simp [reverseListScheduling, reverseLoop, htop, reverseStep_init hcap hproc (top_mem htop)]

end Undefined

/-- `CalcAlap`, the first step of `CalcSchedule` after the task graph is built, is undefined on
every task graph with a sink and a processor for every node. -/
theorem calcAlap_eq_none {rand : Taskgraph → Nat → Int} (fuel : Nat)
    (hcap : ∀ co ∈ occs, 1 ≤ co.capacity)
    (hproc : ∀ n ∈ g.nodes, n.processors ≠ [] ∧ ∀ cid ∈ n.processors, cid < occs.length)
    (hsink : ∃ i < g.nodes.length, g.outEdgeCount i = 0) :
    calcAlap rand (fuel + 1) g occs = none := by
  simp only [calcAlap]
  rw [reverseListScheduling_eq_none hcap (by simpa using hproc) (by simpa using hsink)]
  rfl

/-- The task graph of a program with one task of cost 5 bound to core 0, scheduled with the one
chart of capacity 1 the constructor `Schedule::Schedule` builds for it. -/
def oneTask : Taskgraph := ⟨[⟨5, 0, 0, 0, [0]⟩], []⟩


theorem calcAlap_oneTask :
    ((∀ co ∈ [(init 1 : OccupationChart SingleOccupation)], 1 ≤ co.capacity) ∧
      (∀ n ∈ oneTask.nodes, n.processors ≠ [] ∧
        ∀ cid ∈ n.processors, cid < [(init 1 : OccupationChart SingleOccupation)].length) ∧
      ∃ i < oneTask.nodes.length, oneTask.outEdgeCount i = 0) ∧
    calcAlap (fun _ _ => 0) 1 oneTask [init 1] = none :=
  ⟨⟨by decide, by decide, by decide⟩, calcAlap_eq_none 0 (by decide) (by decide) (by decide)⟩

end Schedule

end Ladybirds
