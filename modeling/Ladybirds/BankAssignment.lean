import Mathlib

/-! # Bank assignment

`BankAssignment` removes the buffers of a task division from a graph of penalties and rewards,
lowest first, and puts them back in reverse order, each into the best bank with room for it;
a failed placement retries with a larger correction factor, up to 10.
-/

namespace Ladybirds

/-- The fields of `impl::Buffer` that bank assignment and cache index optimisation read and
write. -/
structure Buffer where
  size : Int
  memBank : Int
  bankOffset : Int
  deriving DecidableEq, Repr

/-- A task of a division as the two passes see it: the buffer (an index into the division's
buffers) behind each of its interfaces, and the ID of its group. -/
structure DivTask where
  ifaceBuffers : List Nat
  group : Nat
  deriving DecidableEq, Repr

/-- `impl::TaskDivision`: its buffers and its tasks. -/
structure TaskDivision where
  buffers : List Buffer
  tasks : List DivTask
  deriving DecidableEq, Repr

/-- `MultiCritCmp`: the first criterion that is not a tie decides (the last one where all tie),
and `a < b` when it is negative. -/
def multiCritLess (criteria : List Int) : Bool :=
  (criteria.find? (· ≠ 0)).getD 0 < 0

/-- `gen::MinElementIf`: the first element that passes `filter`, replaced by each later one that
passes and is less. -/
def minElementIf {α : Type} (filter : α → Bool) (less : α → α → Bool) (l : List α) : Option α :=
  l.foldl (fun best a => if filter a then
      match best with
      | none => some a
      | some b => if less a b then some a else some b
    else best) none

/-- `gen::MaxElementIf`: the first element that passes `filter`, replaced by each later one that
passes and is greater. -/
def maxElementIf {α : Type} (filter : α → Bool) (less : α → α → Bool) (l : List α) : Option α :=
  minElementIf filter (fun a b => less b a) l

/-- What `MinElementIf` returns is an element that passes the filter. -/
theorem minElementIf_mem {α : Type} {filter : α → Bool} {less : α → α → Bool} {l : List α}
    {a : α} (h : minElementIf filter less l = some a) : a ∈ l ∧ filter a = true := by
  suffices ∀ (m : List α) (init : Option α), (∀ b, init = some b → b ∈ l ∧ filter b = true) →
      (∀ b ∈ m, b ∈ l) → ∀ a, m.foldl (fun best a => if filter a then
        match best with
        | none => some a
        | some b => if less a b then some a else some b
      else best) init = some a → a ∈ l ∧ filter a = true from
    this l none (by simp) (fun _ h => h) a h
  intro m
  induction m with
  | nil => exact fun init hi _ a h => hi a h
  | cons c m ih =>
    intro init hi hm a h
    refine ih _ (fun b hb => ?_) (fun b h => hm b (List.mem_cons_of_mem _ h)) a h
    have hc := hm c (List.mem_cons_self _ _)
    dsimp only at hb
    split_ifs at hb with hf
    · rcases init with _ | b'
      · cases hb; exact ⟨hc, hf⟩
      · dsimp only at hb
        split_ifs at hb
        · cases hb; exact ⟨hc, hf⟩
        · cases hb; exact hi _ rfl
    · exact hi b hb

namespace BankAssignment

def initialBankCapacity : Int := 116 * 1024

/-- `BankAssignment(prog, 16)` in the `AssignBanks` pass. -/
def bankCount : Nat := 16

/-- One entry of the timing specification, its task already looked up. -/
structure TaskTiming where
  task : DivTask
  start : Int
  stop : Int
  deriving DecidableEq, Repr

structure TaskOverlap where
  task1 : DivTask
  task2 : DivTask
  overlap : Int
  deriving DecidableEq, Repr

/-- The loop of `LoadOverlaps` over the pairs of timings: each pair that overlaps by more than the
threshold of 200, the later timing first. -/
def loadOverlaps (timings : List TaskTiming) : List TaskOverlap :=
  timings.enum.flatMap fun (i, t1) => (timings.take i).filterMap fun t2 =>
    let overlap := min t1.stop t2.stop - max t1.start t2.start
    if overlap > 200 then some ⟨t1.task, t2.task, overlap⟩ else none

structure BufferEdge where
  source : Nat
  target : Nat
  penalty : Int
  groupPenalty : Int
  reward : Int
  deriving DecidableEq, Repr

/-- The edge joins the two nodes, in either direction. -/
def BufferEdge.joins (e : BufferEdge) (a b : Nat) : Bool :=
  (e.source = a ∧ e.target = b) || (e.source = b ∧ e.target = a)

/-- `UniEdgeRegister::operator()`: the edge between two nodes, in either direction, changed by
`f`; the first time it is emplaced from `source` to `target`. -/
def registerEdge (es : List BufferEdge) (source target : Nat) (f : BufferEdge → BufferEdge) :
    List BufferEdge :=
  if es.any (·.joins source target) then es.map fun e => if e.joins source target then f e else e
  else es ++ [f ⟨source, target, 0, 0, 0⟩]

/-- The buffer graph: a node per buffer of the division, in order, with its `AccessTaskCount`, and
the edges. -/
structure BufferGraph where
  accessTaskCount : List Int
  edges : List BufferEdge
  deriving DecidableEq, Repr

/-- The penalty edges of `CreateBufferGraph`: for each overlap, every pair of distinct buffers of
the two tasks, the group penalty where their groups' IDs agree modulo 8. -/
def penaltyEdges (overlaps : List TaskOverlap) : List BufferEdge :=
  overlaps.foldl (fun es ov =>
    let punishgroup := ov.task1.group % 8 = ov.task2.group % 8
    ov.task1.ifaceBuffers.foldl (fun es tr1 => ov.task2.ifaceBuffers.foldl (fun es tr2 =>
      if tr1 = tr2 then es
      else registerEdge es tr1 tr2 fun e =>
        { e with
          penalty := e.penalty + ov.overlap
          groupPenalty := if punishgroup then e.groupPenalty + ov.overlap else e.groupPenalty })
      es) es) []

/-- The reward loop of `CreateBufferGraph` for one task: each interface counts an access of its
buffer, and rewards the pair with each earlier interface (also where both share the buffer). -/
def taskRewards (pt : DivTask) (acc : List Int × List BufferEdge) : List Int × List BufferEdge :=
  pt.ifaceBuffers.enum.foldl (fun (acc : List Int × List BufferEdge) (i1, tn1) =>
    ((acc.1.modify (· + 1) tn1),
      (pt.ifaceBuffers.take i1).foldl (fun es tn2 =>
        registerEdge es tn1 tn2 fun e => { e with reward := e.reward + 1 }) acc.2)) acc

/-- `CreateBufferGraph`. -/
def createBufferGraph (div : TaskDivision) (overlaps : List TaskOverlap) : BufferGraph :=
  let r := div.tasks.foldl (fun acc pt => taskRewards pt acc)
    (div.buffers.map fun _ => 0, penaltyEdges overlaps)
  ⟨r.1, r.2⟩

/-- The edges of a node in the order `Node::Edges()` walks them: the in-list, newest first, then
the out-list. -/
def BufferGraph.nodeEdges (g : BufferGraph) (n : Nat) : List BufferEdge :=
  (g.edges.filter (·.target = n)).reverse ++ (g.edges.filter (·.source = n)).reverse

/-- `CountPenaltyEdges`: the number and the total penalty of the penalty edges of a node to nodes
not removed. -/
def countPenaltyEdges (g : BufferGraph) (ignore : List Bool) (n : Nat) : Int × Int :=
  let out := g.edges.filter fun e => e.source = n ∧ !(ignore.getD e.target false) ∧ e.penalty > 0
  let inn := g.edges.filter fun e => e.target = n ∧ !(ignore.getD e.source false) ∧ e.penalty > 0
  ((out.length + inn.length : Nat), (out.map (·.penalty)).sum + (inn.map (·.penalty)).sum)

/-- The criteria of the removal step comparing the node at position `i` with the one at `j`.
`NodeCharacter` refreshes its counts before it advances, so at every position but the first it
carries those of the node before. -/
def removalCriteria (g : BufferGraph) (sizes : List Int) (ignore : List Bool) (correction : Nat)
    (i j : Nat) : List Int :=
  let ci := countPenaltyEdges g ignore (i - 1)
  let cj := countPenaltyEdges g ignore (j - 1)
  let si := sizes.getD i 0
  let sj := sizes.getD j 0
  [-(g.accessTaskCount.getD i 0) - -(g.accessTaskCount.getD j 0) +
      ((si - sj) * 2 ^ correction).tdiv initialBankCapacity,
    ci.1 - cj.1, ci.2 - cj.2, si - sj]

/-- The first step of `AssignBanks`: `k` times, the lowest node not removed yet is removed; the
nodes in the order of their removal. -/
def removalOrder (g : BufferGraph) (sizes : List Int) (correction : Nat) :
    Nat → List Bool → List Nat
  | 0, _ => []
  | k + 1, ignore =>
    match minElementIf (fun i => !(ignore.getD i false))
      (fun i j => multiCritLess (removalCriteria g sizes ignore correction i j))
      (List.range sizes.length) with
    | some n => n :: removalOrder g sizes correction k (ignore.set n true)
    | none => []

/-- The criteria of `nodecmp` as the removal step means them: each node with the counts
`CountPenaltyEdges` gives for that node among the nodes not removed. -/
def ownCriteria (g : BufferGraph) (sizes : List Int) (ignore : List Bool) (correction : Nat)
    (i j : Nat) : List Int :=
  let ci := countPenaltyEdges g ignore i
  let cj := countPenaltyEdges g ignore j
  let si := sizes.getD i 0
  let sj := sizes.getD j 0
  [-(g.accessTaskCount.getD i 0) - -(g.accessTaskCount.getD j 0) +
      ((si - sj) * 2 ^ correction).tdiv initialBankCapacity,
    ci.1 - cj.1, ci.2 - cj.2, si - sj]

/-- `BankCharacteristics`, with the sums of the node being placed. -/
structure Bank where
  penalty : Int
  groupPenalty : Int
  reward : Int
  capacity : Int
  freeSpace : Int
  id : Nat
  deriving DecidableEq, Repr

/-- `GroupCharacteristics`. -/
structure Group where
  penalty : Int
  reward : Int
  deriving DecidableEq, Repr

/-- The banks before the second step: bank 0 holds 5 KiB, the others `InitialBankCapacity`. -/
def initBanks : List Bank :=
  (List.range bankCount).map fun i =>
    let cap := if i = 0 then 5 * 1024 else initialBankCapacity
    ⟨0, 0, 0, cap, cap, i⟩

/-- The state of the second step: the bank of each node (`-1` for none), which nodes are still
removed, the banks, and whether every placement succeeded. -/
structure PlaceState where
  memBank : List Int
  ignore : List Bool
  banks : List Bank
  ret : Bool
  deriving DecidableEq, Repr

/-- The edge sums of node `pn` per bank, over its edges to placed nodes. -/
def bankSums (g : BufferGraph) (st : PlaceState) (pn : Nat) : List Bank :=
  (g.nodeEdges pn).foldl (fun banks e =>
      let pn2 := if e.source = pn then e.target else e.source
      if st.ignore.getD pn2 false then banks
      else
        let bankidx := st.memBank.getD pn2 (-1)
        if bankidx < 0 then banks
        else banks.modify (fun b =>
          { b with
            penalty := b.penalty + e.penalty
            groupPenalty := b.groupPenalty + e.groupPenalty
            reward := b.reward + e.reward })
          bankidx.toNat)
    (st.banks.map fun b => { b with penalty := 0, groupPenalty := 0, reward := 0 })

/-- The two groups (left and right on the MPPA): bank `i` belongs to group `i % 2`. -/
def groupSums (banks : List Bank) : List Group :=
  (List.range 2).map fun gi =>
    let bs := banks.filter (·.id % 2 = gi)
    ⟨(bs.map (·.groupPenalty)).sum, (bs.map (·.reward)).sum⟩

/-- `bankcmp`: lower penalty (own and group's), then higher reward (the group's at 3/8), then
more free space. -/
def bankCriteria (groups : List Group) (b1 b2 : Bank) : List Int :=
  let g1 := groups.getD (b1.id % 2) ⟨0, 0⟩
  let g2 := groups.getD (b2.id % 2) ⟨0, 0⟩
  [(-b1.penalty + b2.penalty) + (-g1.penalty + g2.penalty),
    b1.reward - b2.reward + ((g1.reward - g2.reward) * 3).tdiv 8,
    b1.freeSpace - b2.freeSpace]

/-- One pass of the second step: node `pn` is put back and placed in the best bank with room for
it, searched from the last bank down. -/
def placeNode (g : BufferGraph) (sizes : List Int) (st : PlaceState) (pn : Nat) : PlaceState :=
  let st := { st with ignore := st.ignore.set pn false }
  let banks := bankSums g st pn
  let groups := groupSums banks
  let buffersize := sizes.getD pn 0
  match maxElementIf (fun b => decide (b.freeSpace ≥ buffersize))
      (fun b1 b2 => multiCritLess (bankCriteria groups b1 b2)) banks.reverse with
  | some b =>
    { st with
      memBank := st.memBank.set pn b.id
      banks := banks.modify (fun b => { b with freeSpace := b.freeSpace - buffersize }) b.id }
  | none => { st with memBank := st.memBank.set pn (-1), banks := banks, ret := false }

/-- One run of `AssignBanks(correction)` after its checks: the banks of the nodes and whether all
were placed. -/
def assignOnce (g : BufferGraph) (sizes : List Int) (correction : Nat) : List Int × Bool :=
  let order := removalOrder g sizes correction sizes.length (sizes.map fun _ => false)
  let st := order.reverse.foldl (placeNode g sizes)
    ⟨sizes.map fun _ => -1, sizes.map fun _ => true, initBanks, true⟩
  (st.memBank, st.ret)

/-- `AssignBanks(correction)`, with `fuel` retries left: a buffer bigger than a bank, or buffers
bigger than all banks together, fail at once; a failed placement is retried with the next
correction factor. The banks of the buffers (`-1` for none) and the result. -/
def assignBanksFrom (g : BufferGraph) (sizes : List Int) : Nat → Nat → List Int × Bool
  | fuel, correction =>
    if sizes.any (· > initialBankCapacity) then (sizes.map fun _ => -1, false)
    else if sizes.sum > bankCount * initialBankCapacity then (sizes.map fun _ => -1, false)
    else
      let r := assignOnce g sizes correction
      match fuel with
      | 0 => r
      | fuel + 1 => if r.2 then r else assignBanksFrom g sizes fuel (correction + 1)

/-- `AssignBanks()`: corrections 0 to 10. -/
def assignBanks (g : BufferGraph) (sizes : List Int) : List Int × Bool :=
  assignBanksFrom g sizes 10 0

/-- Three buffers of 100 bytes, one per task; the first two tasks run at the same time. -/
def threeBuffers : TaskDivision :=
  ⟨[⟨100, 0, 0⟩, ⟨100, 0, 0⟩, ⟨100, 0, 0⟩], [⟨[0], 0⟩, ⟨[1], 1⟩, ⟨[2], 2⟩]⟩

/-- The timings of `threeBuffers`: the first two tasks overlap by 1000. -/
def threeTimings : List TaskTiming :=
  [⟨⟨[0], 0⟩, 0, 1000⟩, ⟨⟨[1], 1⟩, 0, 1000⟩, ⟨⟨[2], 2⟩, 2000, 3000⟩]

/-- Buffers 0 and 1 share a penalty edge and buffer 2 has none. Every node is compared with the
counts of the node before it, so all three tie and buffer 0 is removed first, although buffer 2,
with no penalty edge of its own, is lower than buffer 0 under its own counts. -/
theorem removal_uses_predecessor_counts :
    removalOrder (createBufferGraph threeBuffers (loadOverlaps threeTimings)) [100, 100, 100] 0 3
      [false, false, false] = [0, 2, 1] ∧
    multiCritLess (ownCriteria (createBufferGraph threeBuffers (loadOverlaps threeTimings))
      [100, 100, 100] [false, false, false] 0 2 0) = true := by
  decide

end BankAssignment

end Ladybirds
