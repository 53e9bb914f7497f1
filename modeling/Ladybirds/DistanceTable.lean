import Mathlib
import Ladybirds.OptionTraversal

/-! # The distance table

`CalcDistanceTable` gives `dist[s][e]`, the energy of one burst running the tasks `s, …, e`: the
startup cost, the tasks' costs, the writes of data for later bursts and the reads of data from
earlier ones. Tasks are positions, and a `ReadCost` map is a list with ascending keys.
-/

namespace Ladybirds

namespace Transient

/-- A `DepCost` with the tasks of its dependency: the producing task `src` (also `FromID`), the
consuming task `dst`, `ReadCost` and `WriteCost`. -/
structure DepCost (β : Type) where
  src : Nat
  dst : Nat
  readCost : List (Nat × β)
  writeCost : β
  deriving DecidableEq, Repr

section Table

variable {β : Type} [AddCommGroup β] (taskCost : Nat → β) (deps : List (DepCost β))

/-- `ReadCost.lower_bound(minid)->second`; `none` where the assertion that it exists fails. -/
def lowerBound (readCost : List (Nat × β)) (minid : Nat) : Option β :=
  (readCost.find? fun p => minid ≤ p.1).map (·.2)

/-- The loop over `indeps[t]` in the burst from `minid`: a dependency produced in the burst
takes its write back, one produced before pays its read. -/
def inStep (minid : Nat) (cost : β) (pdc : DepCost β) : Option β :=
  if pdc.src ≥ minid then some (cost - pdc.writeCost)
  else (lowerBound pdc.readCost minid).map (cost + ·)

/-- The body of the inner loop of `CalcDistanceTable` for the task `t` in the burst from
`minid`; `outdeps[t]` and `indeps[t]` list the dependencies in the order of `deps`. -/
def addTask (minid : Nat) (cost : β) (t : Nat) : Option β :=
  let cost := cost + taskCost t
  let cost := (deps.filter (·.src = t)).foldl (fun cost pdc => cost + pdc.writeCost) cost
  (deps.filter (·.dst = t)).foldlM (inStep minid) cost

/-- The inner loop of `CalcDistanceTable` for `it1 = minid` over the tasks left: the energies
of the bursts from `minid` to each of them. -/
def distanceRow (minid : Nat) : β → List Nat → Option (List β)
  | _, [] => some []
  | cost, t :: ts => do
    let cost ← addTask taskCost deps minid cost t
    let row ← distanceRow minid cost ts
    some (cost :: row)

/-- `CalcDistanceTable` over `n` tasks with the task costs `t.Cost`, the dependencies and
`startupcost`: `dist[s][e]` for `s ≤ e`, and `infinity` elsewhere. -/
def calcDistanceTable (startupcost : β) (n : Nat) : Option (Nat → Nat → WithTop β) := do
  let rows ← (List.range n).mapM fun s =>
    distanceRow taskCost deps s startupcost (List.range' s (n - s))
  some fun s e => if s ≤ e then ((rows[s]?.bind (·[e - s]?)).map (↑)).getD ⊤ else ⊤

/-- What one dependency adds to the burst of the tasks `s, …, k-1` in the loops: its write if
its producer runs in the burst, and if its consumer does, the write taken back when the
producer runs from `s` on, or else the read from `s` on. -/
def loopShare (s k : Nat) (d : DepCost β) : β :=
  (if s ≤ d.src ∧ d.src < k then d.writeCost else 0) +
    if s ≤ d.dst ∧ d.dst < k then
      (if s ≤ d.src then -d.writeCost else (lowerBound d.readCost s).getD 0)
    else 0

/-- The energy the inner loop has reached after the tasks `s, …, k-1`. -/
def loopEnergy (startupcost : β) (s k : Nat) : β :=
  startupcost + ((List.range' s (k - s)).map taskCost).sum + (deps.map (loopShare s k)).sum

/-- The energy of the burst of the tasks `s, …, e`: the startup cost, the tasks' own costs, the
writes of the data its tasks produce for tasks after it, and the reads from `s` on of the data
its tasks consume from tasks before it. -/
def burstEnergy (startupcost : β) (s e : Nat) : β :=
  startupcost + ((List.range' s (e + 1 - s)).map taskCost).sum +
    ((deps.filter fun d => s ≤ d.src ∧ d.src ≤ e ∧ e < d.dst).map (·.writeCost)).sum +
    ((deps.filter fun d => d.src < s ∧ s ≤ d.dst ∧ d.dst ≤ e).map
      fun d => (lowerBound d.readCost s).getD 0).sum

variable {taskCost deps}

theorem foldl_add_eq_sum {γ : Type} (f : γ → β) :
    ∀ (l : List γ) (c : β), l.foldl (fun c d => c + f d) c = c + (l.map f).sum
  | [], c => (add_zero c).symm
  | d :: l, c => by
    rw [List.foldl_cons, foldl_add_eq_sum f l, List.map_cons, List.sum_cons, add_assoc]

theorem sum_map_ite {γ : Type} (p : γ → Prop) [DecidablePred p] (f : γ → β) :
    ∀ l : List γ, (l.map fun d => if p d then f d else 0).sum = ((l.filter (p ·)).map f).sum
  | [] => rfl
  | d :: l => by by_cases h : p d <;> simp [List.filter_cons, h, sum_map_ite p f l]

/-- The reads of the burst from `minid` that `indeps[t]` can ask for exist. -/
def ReadsExist (deps : List (DepCost β)) (minid t : Nat) : Prop :=
  ∀ d ∈ deps, d.dst = t → d.src < minid → (lowerBound d.readCost minid).isSome

instance (deps : List (DepCost β)) (minid t : Nat) : Decidable (ReadsExist deps minid t) :=
  inferInstanceAs (Decidable (∀ d ∈ deps, _))

theorem foldlM_inStep {minid : Nat} :
    ∀ (l : List (DepCost β)) (c : β),
      (∀ d ∈ l, d.src < minid → (lowerBound d.readCost minid).isSome) →
      l.foldlM (inStep minid) c = some (c + (l.map fun d =>
        if minid ≤ d.src then -d.writeCost else (lowerBound d.readCost minid).getD 0).sum)
  | [], c, _ => by simp
  | d :: l, c, h => by
    have hd : inStep minid c d = some (c + if minid ≤ d.src then -d.writeCost
        else (lowerBound d.readCost minid).getD 0) := by
      unfold inStep
      split_ifs with hs
      · rw [sub_eq_add_neg]
      · obtain ⟨r, hr⟩ := Option.isSome_iff_exists.1 (h d (List.mem_cons_self d l) (by omega))
        rw [hr, Option.map_some', Option.getD_some]
    rw [List.foldlM_cons, hd, Option.bind_eq_bind, Option.some_bind,
      foldlM_inStep l _ fun d' hd' => h d' (List.mem_cons_of_mem d hd'), List.map_cons,
      List.sum_cons, add_assoc]

/-- Adding the task `k` moves the loop's energy from `s, …, k-1` to `s, …, k`. -/
theorem loopShare_succ {s k : Nat} (hsk : s ≤ k) (d : DepCost β) :
    loopShare s (k + 1) d = loopShare s k d + (if d.src = k then d.writeCost else 0) +
      if d.dst = k then
        (if s ≤ d.src then -d.writeCost else (lowerBound d.readCost s).getD 0)
      else 0 := by
  unfold loopShare
  by_cases h₁ : d.src = k <;> by_cases h₂ : d.dst = k <;>
    simp only [h₁, h₂, if_true, if_false, add_zero] <;>
    split_ifs <;> first | omega | abel

theorem addTask_loopEnergy {startupcost : β} {s k : Nat} (hsk : s ≤ k)
    (hread : ReadsExist deps s k) :
    addTask taskCost deps s (loopEnergy taskCost deps startupcost s k) k =
      some (loopEnergy taskCost deps startupcost s (k + 1)) := by
  rw [addTask, foldl_add_eq_sum, foldlM_inStep _ _ fun d hd hs => hread d
    (List.mem_filter.1 hd).1 (by simpa using (List.mem_filter.1 hd).2) hs]
  congr 1
  rw [loopEnergy, loopEnergy, show k + 1 - s = k - s + 1 by omega, List.range'_concat,
    show s + 1 * (k - s) = k by omega, List.map_append, List.sum_append, List.map_singleton,
    List.sum_singleton, List.map_congr_left fun d _ => loopShare_succ hsk d, List.sum_map_add,
    List.sum_map_add, ← sum_map_ite, ← sum_map_ite]
  abel

/-- From the tasks `s, …, k-1` done, the row lists the energies of the bursts to each task
left. -/
theorem distanceRow_eq {startupcost : β} {s N : Nat}
    (hread : ∀ t, s ≤ t → t < N → ReadsExist deps s t) :
    ∀ m k, s ≤ k → k + m ≤ N → distanceRow taskCost deps s
      (loopEnergy taskCost deps startupcost s k) (List.range' k m) =
        some ((List.range m).map fun i => loopEnergy taskCost deps startupcost s (k + i + 1))
  | 0, _, _, _ => rfl
  | m + 1, k, hk, hN => by
    rw [List.range'_succ, distanceRow, addTask_loopEnergy hk (hread k hk (by omega)),
      Option.bind_eq_bind, Option.some_bind, distanceRow_eq hread m (k + 1) (by omega) (by omega),
      Option.bind_eq_bind, Option.some_bind, List.range_succ_eq_map, List.map_cons, List.map_map]
    congr 3
    funext i
    simp only [Function.comp_apply, Nat.add_zero]
    congr 1
    omega

@[simp] theorem loopEnergy_self (startupcost : β) (s : Nat) :
    loopEnergy taskCost deps startupcost s s = startupcost := by
  have h : loopShare s s = fun _ : DepCost β => (0 : β) := funext fun d => by
    rw [loopShare, if_neg (by omega), if_neg (by omega), add_zero]
  simp [loopEnergy, h]

/-- `CalcDistanceTable` succeeds when every read it looks up exists, and `dist[s][e]` is the
energy the inner loop reaches at `e`. -/
theorem calcDistanceTable_loopEnergy {startupcost : β} {n : Nat}
    (hread : ∀ t < n, ∀ s ≤ t, ReadsExist deps s t) :
    ∃ dist, calcDistanceTable taskCost deps startupcost n = some dist ∧
      (∀ s e, s ≤ e → e < n → dist s e = ↑(loopEnergy taskCost deps startupcost s (e + 1))) ∧
      ∀ s e, e < s → dist s e = ⊤ := by
  have hrow : ∀ s < n, distanceRow taskCost deps s startupcost (List.range' s (n - s)) =
      some ((List.range (n - s)).map fun i =>
        loopEnergy taskCost deps startupcost s (s + i + 1)) := fun s hs => by
    have h : distanceRow taskCost deps s (loopEnergy taskCost deps startupcost s s)
        (List.range' s (n - s)) = _ :=
      distanceRow_eq (fun t hst htn => hread t htn s hst) (n - s) s le_rfl (by omega)
    simpa using h
  obtain ⟨rows, hrows⟩ := exists_mapM_eq_some fun s hs => ⟨_, hrow s (List.mem_range.1 hs)⟩
  refine ⟨_, by rw [calcDistanceTable, hrows]; rfl, fun s e hse hen => ?_, fun s e hes => ?_⟩
  · rw [if_pos hse, getElem?_mapM hrows s, List.getElem?_range (by omega), Option.some_bind,
      hrow s (by omega), Option.some_bind, List.getElem?_map, List.getElem?_range (by omega),
      Option.map_some',
      Option.map_some', Option.getD_some, show s + (e - s) + 1 = e + 1 by omega]
  · exact if_neg (by omega)

/-- For a dependency that runs forward, the loops' write and take-back cancel inside the burst,
leaving a write for a consumer after it and a read for a producer before it. -/
theorem loopShare_of_forward {s e : Nat} {d : DepCost β} (hd : d.src ≤ d.dst) :
    loopShare s (e + 1) d = (if s ≤ d.src ∧ d.src ≤ e ∧ e < d.dst then d.writeCost else 0) +
      if d.src < s ∧ s ≤ d.dst ∧ d.dst ≤ e then (lowerBound d.readCost s).getD 0 else 0 := by
  unfold loopShare
  split_ifs <;> first | omega | abel

theorem loopEnergy_eq_burstEnergy {startupcost : β} {s e : Nat}
    (hfwd : ∀ d ∈ deps, d.src ≤ d.dst) :
    loopEnergy taskCost deps startupcost s (e + 1) = burstEnergy taskCost deps startupcost s e := by
  rw [loopEnergy, burstEnergy, List.map_congr_left fun d hd => loopShare_of_forward (hfwd d hd),
    List.sum_map_add, sum_map_ite, sum_map_ite]
  abel

/-- Three tasks: the first produces data for the second and the third. -/
def chainDeps : List (DepCost Int) := [⟨0, 2, [(2, 5)], 3⟩, ⟨0, 1, [(1, 4)], 2⟩]

/-- The burst of all three tasks pays no transfer; the burst of the last two reads both. -/
example : (calcDistanceTable (fun t => 10 * ((t : Int) + 1)) chainDeps 7 3).map
    (fun dist => (dist 0 2, dist 1 2)) =
      some (((67 : Int) : WithTop Int), ((66 : Int) : WithTop Int)) := by
  decide

end Table

end Transient

end Ladybirds
