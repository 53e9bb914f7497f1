import Mathlib

/-! # Optimal bursts

`FindShortestPath` partitions the task sequence into consecutive bursts by a one-pass dynamic
program, and `FindOptimalBursts` runs it with `max` and with `+`. Nodes are positions, the node
maps are functions, and costs live in a linear order with a top (`infinity`) and a `0`.
-/

namespace Ladybirds

namespace Transient

/-- The node maps of `FindShortestPath` and the two values it carries from the previous
node. -/
structure PathState (α : Type) where
  shortest : Nat → α
  pred : Nat → Option Nat
  shortestN1 : α
  predN1 : Option Nat

section Model

variable {α : Type} [LinearOrder α] [OrderTop α] [Zero α]
  (combine : α → α → α) (dist : Nat → Nat → α)

/-- The inner loop's body for `n1 = i` and `n2 = j`: a strictly cheaper last segment
`[i, j]` replaces the best one found so far. -/
def relax (i : Nat) (st : PathState α) (j : Nat) : PathState α :=
  let altcost := combine st.shortestN1 (dist i j)
  if altcost < st.shortest j then
    { st with shortest := Function.update st.shortest j altcost,
              pred := Function.update st.pred j st.predN1 }
  else st

/-- The outer loop's body for `n1 = i` of `n` nodes. -/
def visitNode (n : Nat) (st : PathState α) (i : Nat) : PathState α :=
  let st := (List.range' i (n - i)).foldl (relax combine dist i) st
  { st with shortestN1 := st.shortest i, predN1 := some i }

/-- The path from `p` back along `pred`, listed forward; `fuel` bounds its length. -/
def tracePath (pred : Nat → Option Nat) : Nat → Nat → List Nat
  | 0, _ => []
  | fuel + 1, p =>
    (match pred p with
      | none => []
      | some q => tracePath pred fuel q) ++ [p]

/-- `FindShortestPath` on the nodes `0, …, n-1`: the cost of the last node and the path. -/
def findShortestPath (n : Nat) : α × List Nat :=
  let st := (List.range n).foldl (visitNode combine dist n) ⟨fun _ => ⊤, fun _ => none, 0, none⟩
  (st.shortest (n - 1), tracePath st.pred n (n - 1))

end Model

/-- The partitions of the nodes `0, …, j` into consecutive non-empty segments, by the last
nodes of their segments. -/
inductive Partition : Nat → List Nat → Prop
  | single (j : Nat) : Partition j [j]
  | snoc {m j : Nat} {ends : List Nat} : Partition m ends → m < j → Partition j (ends ++ [j])

/-- The segments `(first, last)` of the partition whose segments end at `ends`, the first
one starting at `s`. -/
def segments : Nat → List Nat → List (Nat × Nat)
  | _, [] => []
  | s, e :: es => (s, e) :: segments (e + 1) es

section Cost

variable {α : Type} [Zero α] (combine : α → α → α) (dist : Nat → Nat → α)

/-- The costs `dist[first][last]` of the segments. -/
def segmentCosts (ends : List Nat) : List α := (segments 0 ends).map fun s => dist s.1 s.2

/-- The cost `combine` accumulates over the segments, from the code's start value `0`. -/
def partitionCost (ends : List Nat) : α := (segmentCosts dist ends).foldl combine 0

theorem Partition.getLast? {m : Nat} {ends : List Nat} (h : Partition m ends) :
    ends.getLast? = some m := by
  cases h <;> simp

theorem segments_concat (j : Nat) :
    ∀ (s : Nat) (es : List Nat),
      segments s (es ++ [j]) = segments s es ++ [((es.getLast?.map (· + 1)).getD s, j)]
  | _, [] => rfl
  | s, e :: es => by
    rw [List.cons_append, segments, segments, segments_concat j (e + 1) es, List.getLast?_cons]
    cases es.getLast? <;> rfl

@[simp] theorem partitionCost_single (j : Nat) :
    partitionCost combine dist [j] = combine 0 (dist 0 j) := rfl

theorem partitionCost_snoc {m j : Nat} {ends : List Nat} (h : Partition m ends) :
    partitionCost combine dist (ends ++ [j]) =
      combine (partitionCost combine dist ends) (dist (m + 1) j) := by
  simp [partitionCost, segmentCosts, segments_concat, h.getLast?]

end Cost

/-- `r` answers the nodes `0, …, n-1` optimally under `cost`: its value is the least cost of
a partition and some partition attains it, and when it is finite the path is a partition
that attains it. -/
def Optimal {α : Type} [LinearOrder α] [OrderTop α] (n : Nat) (cost : List Nat → α)
    (r : α × List Nat) : Prop :=
  (∀ ends, Partition (n - 1) ends → r.1 ≤ cost ends) ∧
  (∃ ends, Partition (n - 1) ends ∧ cost ends = r.1) ∧
  (r.1 < ⊤ → Partition (n - 1) r.2 ∧ cost r.2 = r.1)

section Relaxation

variable {α : Type} [LinearOrder α] {combine : α → α → α} {dist : Nat → Nat → α}

/-- What relaxing the nodes of `L` from node `i` does: each of them ends no dearer than the
segment from `i`, nothing gets dearer, and every entry is kept or is that segment. -/
structure Relaxed (combine : α → α → α) (dist : Nat → Nat → α) (i : Nat) (L : List Nat)
    (st st' : PathState α) : Prop where
  shortestN1 : st'.shortestN1 = st.shortestN1
  predN1 : st'.predN1 = st.predN1
  le_alt : ∀ j ∈ L, st'.shortest j ≤ combine st.shortestN1 (dist i j)
  le : ∀ j, st'.shortest j ≤ st.shortest j
  kept_or_set : ∀ j, (st'.shortest j = st.shortest j ∧ st'.pred j = st.pred j) ∨
    (j ∈ L ∧ st'.shortest j = combine st.shortestN1 (dist i j) ∧ st'.pred j = st.predN1)

theorem relaxed_relax (i j : Nat) (st : PathState α) :
    Relaxed combine dist i [j] st (relax combine dist i st j) := by
  dsimp only [relax]
  split
  case isTrue hlt =>
    refine ⟨rfl, rfl, by simp, fun k => ?_, fun k => ?_⟩
    · by_cases hk : k = j
      · subst hk; simpa using hlt.le
      · simp [hk]
    · by_cases hk : k = j
      · subst hk; simp
      · simp [hk]
  case isFalse hge =>
    exact ⟨rfl, rfl, by simpa using hge, fun _ => le_rfl, fun _ => .inl ⟨rfl, rfl⟩⟩

theorem Relaxed.trans {i j : Nat} {L : List Nat} {st st' st'' : PathState α}
    (h₁ : Relaxed combine dist i [j] st st') (h₂ : Relaxed combine dist i L st' st'') :
    Relaxed combine dist i (j :: L) st st'' := by
  have hN1 := h₁.shortestN1
  refine ⟨h₂.shortestN1.trans hN1, h₂.predN1.trans h₁.predN1, ?_,
    fun k => (h₂.le k).trans (h₁.le k), fun k => ?_⟩
  · rintro k (_ | ⟨_, hk⟩)
    · exact (h₂.le j).trans (h₁.le_alt j (List.mem_singleton_self j))
    · exact hN1 ▸ h₂.le_alt k hk
  · rcases h₂.kept_or_set k with ⟨e₁, e₂⟩ | ⟨hk, e₁, e₂⟩
    · rcases h₁.kept_or_set k with ⟨e₃, e₄⟩ | ⟨hk, e₃, e₄⟩
      · exact .inl ⟨e₁.trans e₃, e₂.trans e₄⟩
      · exact .inr ⟨by simp_all, e₁.trans e₃, e₂.trans e₄⟩
    · exact .inr ⟨List.mem_cons_of_mem j hk, hN1 ▸ e₁, h₁.predN1 ▸ e₂⟩

theorem relaxed_foldl (i : Nat) :
    ∀ (L : List Nat) (st : PathState α),
      Relaxed combine dist i L st (L.foldl (relax combine dist i) st)
  | [], _ => ⟨rfl, rfl, by simp, fun _ => le_rfl, fun _ => .inl ⟨rfl, rfl⟩⟩
  | j :: L, st => (relaxed_relax i j st).trans (relaxed_foldl i L _)

end Relaxation

section Loops

variable {α : Type} [LinearOrder α] [OrderTop α] [Zero α]
  {combine : α → α → α} {dist : Nat → Nat → α}

/-- What the loops know before visiting node `i` of `n`: a partition whose last segment
starts before `i` costs no less than `shortest` at its last node, `pred` records how
`shortest` was reached, and the carried values are those of node `i - 1`. -/
structure Inv (combine : α → α → α) (dist : Nat → Nat → α) (n i : Nat)
    (st : PathState α) : Prop where
  first : 0 < i → ∀ j < n, st.shortest j ≤ combine 0 (dist 0 j)
  later : ∀ m j ends, Partition m ends → m + 1 < i → m < j → j < n →
    st.shortest j ≤ combine (partitionCost combine dist ends) (dist (m + 1) j)
  predNone : ∀ j, st.pred j = none → st.shortest j = ⊤ ∨ st.shortest j = combine 0 (dist 0 j)
  predSome : ∀ j m, st.pred j = some m →
    m < j ∧ m < i ∧ st.shortest j = combine (st.shortest m) (dist (m + 1) j)
  carriedNone : st.predN1 = none → i = 0 ∧ st.shortestN1 = 0
  carriedSome : ∀ m, st.predN1 = some m → i = m + 1 ∧ st.shortestN1 = st.shortest m

theorem inv_init (n : Nat) :
    Inv combine dist n 0 ⟨fun _ => ⊤, fun _ => none, 0, none⟩ where
  first h := absurd h (Nat.lt_irrefl 0)
  later _ _ _ _ h := absurd h (Nat.not_lt_zero _)
  predNone _ _ := .inl rfl
  predSome _ _ h := nomatch h
  carriedNone _ := ⟨rfl, rfl⟩
  carriedSome _ h := nomatch h

/-- Every partition of the nodes up to a visited node costs at least `shortest` there. -/
theorem Inv.le_cost {n i m : Nat} {st : PathState α} {ends : List Nat}
    (hI : Inv combine dist n i st) (hmi : m < i) (hmn : m < n) :
    Partition m ends → st.shortest m ≤ partitionCost combine dist ends
  | .single _ => hI.first (by omega) m hmn
  | .snoc (m := k) h hk => (partitionCost_snoc combine dist h).symm ▸
      hI.later k m _ h (by omega) hk hmn

/-- The carried cost `shortestN1` is `0` before the first node and the cost of the node visited
last after it. -/
theorem Inv.carried_succ {n i m : Nat} {st : PathState α} (hI : Inv combine dist n i st)
    (hm : i = m + 1) : st.shortestN1 = st.shortest m := by
  cases hp : st.predN1 with
  | none => have := (hI.carriedNone hp).1; omega
  | some k =>
    obtain ⟨hk, e⟩ := hI.carriedSome k hp
    obtain rfl : k = m := by omega
    exact e

theorem Inv.carried_zero {n i : Nat} {st : PathState α} (hI : Inv combine dist n i st)
    (h0 : i = 0) : st.shortestN1 = 0 := by
  cases hp : st.predN1 with
  | none => exact (hI.carriedNone hp).2
  | some k => have := (hI.carriedSome k hp).1; omega

theorem Inv.visitNode {n i : Nat} {st : PathState α} (hI : Inv combine dist n i st)
    (hmono : ∀ a b c, a ≤ b → combine a c ≤ combine b c) (hin : i < n) :
    Inv combine dist n (i + 1) (visitNode combine dist n st i) := by
  have hR : Relaxed combine dist i _ st _ := relaxed_foldl i (List.range' i (n - i)) st
  set st₁ := (List.range' i (n - i)).foldl (relax combine dist i) st
  have hmem : ∀ j, j ∈ List.range' i (n - i) ↔ i ≤ j ∧ j < n := fun j => by
    rw [List.mem_range'_1]; omega
  have hkeep : ∀ k < i, st₁.shortest k = st.shortest k ∧ st₁.pred k = st.pred k := fun k hk =>
    (hR.kept_or_set k).resolve_right fun ⟨h, _⟩ => by have := (hmem k).1 h; omega
  constructor
  case first =>
    intro _ j hj
    rcases Nat.eq_zero_or_pos i with rfl | hi
    · simpa [hI.carried_zero rfl] using hR.le_alt j ((hmem j).2 ⟨Nat.zero_le j, hj⟩)
    · exact (hR.le j).trans (hI.first hi j hj)
  case later =>
    intro m j ends hp hm hmj hj
    rcases Nat.lt_or_ge (m + 1) i with hlt | hge
    · exact (hR.le j).trans (hI.later m j ends hp hlt hmj hj)
    · obtain rfl : i = m + 1 := by omega
      calc st₁.shortest j ≤ combine st.shortestN1 (dist (m + 1) j) :=
            hR.le_alt j ((hmem j).2 ⟨hmj, hj⟩)
        _ ≤ _ := hmono _ _ _ (hI.carried_succ rfl ▸ hI.le_cost (by omega) (by omega) hp)
  case predNone =>
    intro j hp
    rcases hR.kept_or_set j with ⟨e₁, e₂⟩ | ⟨hj, e₁, e₂⟩
    · exact e₁ ▸ hI.predNone j (e₂ ▸ hp)
    · obtain ⟨rfl, h0⟩ := hI.carriedNone (e₂ ▸ hp)
      exact .inr (e₁.trans (congrArg (combine · _) h0))
  case predSome =>
    intro j m hp
    rcases hR.kept_or_set j with ⟨e₁, e₂⟩ | ⟨hj, e₁, e₂⟩
    · obtain ⟨hmj, hmi, e⟩ := hI.predSome j m (e₂ ▸ hp)
      exact ⟨hmj, by omega, e₁.trans (e.trans (congrArg (combine · _) (hkeep m hmi).1.symm))⟩
    · obtain ⟨rfl, e⟩ := hI.carriedSome m (e₂ ▸ hp)
      have := (hmem j).1 hj
      exact ⟨by omega, by omega,
        e₁.trans (congrArg (combine · _) (e.trans (hkeep m (by omega)).1.symm))⟩
  case carriedNone => intro h; exact absurd h (Option.some_ne_none i)
  case carriedSome =>
    rintro m ⟨⟩
    exact ⟨rfl, rfl⟩

theorem inv_run (hmono : ∀ a b c, a ≤ b → combine a c ≤ combine b c) {n : Nat} :
    ∀ k ≤ n, Inv combine dist n k
      ((List.range k).foldl (visitNode combine dist n) ⟨fun _ => ⊤, fun _ => none, 0, none⟩)
  | 0, _ => inv_init n
  | k + 1, hk => by
    rw [List.range_succ, List.foldl_append, List.foldl_cons, List.foldl_nil]
    exact (inv_run hmono k (by omega)).visitNode hmono (by omega)

/-- Following `pred` back from a node of finite cost gives a partition of that cost. -/
theorem Inv.tracePath_partition {n i : Nat} {st : PathState α} (hI : Inv combine dist n i st)
    (htop : ∀ c, combine ⊤ c = ⊤) :
    ∀ fuel j, j < fuel → st.shortest j < ⊤ →
      Partition j (tracePath st.pred fuel j) ∧
        partitionCost combine dist (tracePath st.pred fuel j) = st.shortest j
  | 0, _, h, _ => absurd h (Nat.not_lt_zero _)
  | fuel + 1, j, hj, hfin => by
    rw [tracePath]
    cases hp : st.pred j with
    | none =>
      rcases hI.predNone j hp with h | h
      · exact absurd h hfin.ne
      · exact ⟨.single j, h.symm⟩
    | some m =>
      obtain ⟨hmj, -, e⟩ := hI.predSome j m hp
      have hm : st.shortest m < ⊤ := lt_top_iff_ne_top.2 fun h => by
        rw [e, h, htop] at hfin; exact lt_irrefl _ hfin
      obtain ⟨hpart, hcost⟩ := hI.tracePath_partition htop fuel m (by omega) hm
      exact ⟨.snoc hpart hmj, by rw [partitionCost_snoc combine dist hpart, hcost, e]⟩

/-- Following `pred` back from a node always gives a partition, whatever its cost. -/
theorem Inv.tracePath_isPartition {n i : Nat} {st : PathState α} (hI : Inv combine dist n i st) :
    ∀ fuel j, j < fuel → Partition j (tracePath st.pred fuel j)
  | 0, _, h => absurd h (Nat.not_lt_zero _)
  | fuel + 1, j, hj => by
    rw [tracePath]
    cases hp : st.pred j with
    | none => exact .single j
    | some m =>
      obtain ⟨hmj, -, -⟩ := hI.predSome j m hp
      exact .snoc (hI.tracePath_isPartition fuel m (by omega)) hmj

/-- The path `FindShortestPath` returns is always a partition of the nodes. -/
theorem findShortestPath_partition (hmono : ∀ a b c, a ≤ b → combine a c ≤ combine b c)
    {n : Nat} (hn : 0 < n) : Partition (n - 1) (findShortestPath combine dist n).2 :=
  (inv_run hmono n le_rfl).tracePath_isPartition n (n - 1) (by omega)

/-- The dynamic program is optimal for every `combine` that is monotone in the carried cost
and keeps `⊤` absorbing. -/
theorem findShortestPath_optimal_of_mono
    (hmono : ∀ a b c, a ≤ b → combine a c ≤ combine b c) (htop : ∀ c, combine ⊤ c = ⊤)
    {n : Nat} (hn : 0 < n) :
    Optimal n (partitionCost combine dist) (findShortestPath combine dist n) := by
  have hI : Inv combine dist n n _ := inv_run hmono n le_rfl
  set st := (List.range n).foldl (visitNode combine dist n)
    ⟨fun _ => ⊤, fun _ => none, 0, none⟩
  have hlast : n - 1 < n := by omega
  have hpath := fun hfin => hI.tracePath_partition htop n (n - 1) hlast hfin
  refine ⟨fun ends h => hI.le_cost hlast hlast h, ?_, hpath⟩
  by_cases hfin : st.shortest (n - 1) < ⊤
  · exact ⟨_, hpath hfin⟩
  · have htop' : st.shortest (n - 1) = ⊤ := not_lt_top_iff.1 hfin
    refine ⟨[n - 1], .single _, ?_⟩
    show partitionCost combine dist [n - 1] = st.shortest (n - 1)
    rw [htop', ← top_le_iff, ← htop']
    exact hI.le_cost hlast hlast (.single _)

end Loops

/-- Both runs of `FindOptimalBursts` are optimal: with `+` for the sum of the segment costs
and with `max` for their maximum. -/
theorem findShortestPath_optimal {α : Type} [CanonicallyLinearOrderedAddCommMonoid α]
    [OrderTop α] (dist : Nat → Nat → α) {n : Nat} (hn : 0 < n) :
    Optimal n (fun ends => (segmentCosts dist ends).sum) (findShortestPath (· + ·) dist n) ∧
    Optimal n (fun ends => (segmentCosts dist ends).foldr max 0)
      (findShortestPath max dist n) := by
  have hsum : (fun ends => (segmentCosts dist ends).sum) = partitionCost (· + ·) dist :=
    funext fun _ => List.sum_eq_foldl
  have hmax : (fun ends => (segmentCosts dist ends).foldr max 0) = partitionCost max dist :=
    funext fun _ => (List.foldl_eq_foldr _ _).symm
  rw [hsum, hmax]
  exact ⟨findShortestPath_optimal_of_mono (fun _ _ c h => add_le_add_right h c)
      (fun c => top_le_iff.1 le_self_add) hn,
    findShortestPath_optimal_of_mono (fun _ _ c h => max_le_max_right c h)
      (fun c => max_eq_left le_top) hn⟩

/-- Three tasks, where merging all three into one burst costs more than two bursts. -/
def burstDist (i j : Nat) : WithTop Nat :=
  if i = 0 ∧ j = 0 then (4 : Nat) else if i = 1 ∧ j = 2 then (3 : Nat)
  else if i = 0 ∧ j = 2 then (10 : Nat) else ⊤

example : findShortestPath (· + ·) burstDist 3 = (((7 : Nat) : WithTop Nat), [0, 2]) := by
  decide

theorem burstDist_optimal :
    0 < 3 ∧ Optimal 3 (fun ends => (segmentCosts burstDist ends).sum)
      (findShortestPath (· + ·) burstDist 3) ∧
    Optimal 3 (fun ends => (segmentCosts burstDist ends).foldr max 0)
      (findShortestPath max burstDist 3) :=
  ⟨by decide, findShortestPath_optimal burstDist (by decide)⟩

/-! ## Capped bursts

`FindOptimalBursts` first fixes a cap on the energy of one burst: the given `MaxBurstCost`, or,
when that is `0` or less, the least cap any partition allows, which `FindShortestPath` with
`max` finds. It sets every entry of the table above the cap to `infinity` and partitions the
capped table with `+`. `GetRealMaxBurstCost` then reports the dearest burst of the grouping. -/

section GroupMax

variable {α : Type} [LinearOrder α]

/-- One node of `GetRealMaxBurstCost`'s loop, whose state is `maxburstcost`, `pgroupstart` and
the group ends not reached yet; comparing with a group end past the last one is undefined. -/
def realMaxStep (dist : Nat → Nat → α) :
    Option (α × Option Nat × List Nat) → Nat → Option (α × Option Nat × List Nat)
  | none, _ => none
  | some (m, start, groupends), node =>
    let groupstart := start.getD node
    match groupends with
    | [] => none
    | e :: es =>
      if node = e then
        let curcost := dist groupstart e
        some (if curcost > m then curcost else m, none, es)
      else some (m, some groupstart, e :: es)

theorem ite_gt_eq_max (m c : α) : (if c > m then c else m) = max m c := by
  rw [max_def]
  split_ifs with h₁ h₂ h₂
  · rfl
  · exact absurd h₁.le h₂
  · exact le_antisymm h₂ (not_lt.1 h₁)
  · rfl

/-- Inside a group, a node before the group's end changes nothing. -/
theorem realMaxStep_inside (dist : Nat → Nat → α) {m : α} {s e : Nat} {es : List Nat} :
    ∀ L : List Nat, (∀ k ∈ L, k ≠ e) →
      L.foldl (realMaxStep dist) (some (m, some s, e :: es)) = some (m, some s, e :: es)
  | [], _ => rfl
  | k :: L, h => by
    rw [List.foldl_cons]
    simp only [realMaxStep, Option.getD_some, if_neg (h k (List.mem_cons_self _ _))]
    exact realMaxStep_inside dist L fun k hk => h k (List.mem_cons_of_mem _ hk)

/-- The nodes `s, …, e` of one group: the group's cost `dist[s][e]` enters the maximum. -/
theorem realMaxStep_group (dist : Nat → Nat → α) (m : α) {s e : Nat} (hse : s ≤ e)
    (es : List Nat) :
    (List.range' s (e + 1 - s)).foldl (realMaxStep dist) (some (m, none, e :: es)) =
      some (if dist s e > m then dist s e else m, none, es) := by
  rw [show e + 1 - s = (e - s) + 1 by omega, List.range'_concat, List.foldl_append,
    show s + 1 * (e - s) = e by omega]
  rcases Nat.eq_zero_or_pos (e - s) with h0 | hpos
  · obtain rfl : s = e := by omega
    simp [h0, realMaxStep]
  · have hfirst : realMaxStep dist (some (m, none, e :: es)) s = some (m, some s, e :: es) := by
      simp [realMaxStep, show s ≠ e by omega]
    have hin : (List.range' s (e - s)).foldl (realMaxStep dist) (some (m, none, e :: es)) =
        some (m, some s, e :: es) := by
      rw [show e - s = (e - s - 1) + 1 by omega, List.range'_succ, List.foldl_cons, hfirst,
        realMaxStep_inside dist _ fun k hk => by rw [List.mem_range'_1] at hk; omega]
    rw [hin]
    simp [realMaxStep]

variable [Zero α]

/-- `GetRealMaxBurstCost` over the nodes `0, …, n-1`. -/
def getRealMaxBurstCost (dist : Nat → Nat → α) (n : Nat) (groupends : List Nat) : Option α :=
  ((List.range n).foldl (realMaxStep dist) (some (0, none, groupends))).map (·.1)

/-- The loop over the nodes of a partition takes the maximum over its groups. -/
theorem realMaxStep_partition (dist : Nat → Nat → α) {j : Nat} {ends : List Nat}
    (h : Partition j ends) (rest : List Nat) :
    (List.range (j + 1)).foldl (realMaxStep dist) (some (0, none, ends ++ rest)) =
      some (partitionCost (fun m c => if c > m then c else m) dist ends, none, rest) := by
  induction h generalizing rest with
  | single j =>
    rw [List.range_eq_range', show j + 1 = j + 1 - 0 by omega, List.singleton_append,
      realMaxStep_group dist 0 (Nat.zero_le j)]
    rfl
  | @snoc m j ends h hmj ih =>
    rw [List.range_eq_range', show j + 1 = (j + 1 - (m + 1)) + (m + 1) by omega,
      ← List.range'_append, List.foldl_append, ← List.range_eq_range', List.append_assoc,
      List.singleton_append, ih, show 0 + 1 * (m + 1) = m + 1 by omega,
      realMaxStep_group dist _ hmj, partitionCost_snoc _ dist h]

end GroupMax

section CappedOptimal

variable {α : Type} [CanonicallyLinearOrderedAddCommMonoid α]

/-- On a partition, `GetRealMaxBurstCost` reports its dearest group, and never reads past the
last group end. -/
theorem getRealMaxBurstCost_eq (dist : Nat → Nat → α) {n : Nat} (hn : 0 < n) {ends : List Nat}
    (h : Partition (n - 1) ends) :
    getRealMaxBurstCost dist n ends = some ((segmentCosts dist ends).foldr max 0) := by
  have := realMaxStep_partition dist h []
  rw [List.append_nil, show n - 1 + 1 = n by omega] at this
  rw [getRealMaxBurstCost, this, Option.map_some']
  congr 1
  rw [partitionCost, ← List.foldl_eq_foldr]
  exact congrArg (fun f => List.foldl f 0 _) (funext₂ ite_gt_eq_max)

theorem foldr_max_le_iff {l : List α} {c : α} : l.foldr max 0 ≤ c ↔ ∀ x ∈ l, x ≤ c := by
  induction l with
  | nil => simp
  | cons a l ih => simp [ih]

variable [OrderTop α]

/-- The loop of `FindOptimalBursts` that caps the table: an entry dearer than `maxburstcost`
becomes `infinity`. -/
def capTable (dist : Nat → Nat → α) (maxburstcost : α) (i j : Nat) : α :=
  if dist i j > maxburstcost then ⊤ else dist i j

/-- `FindOptimalBursts` on the table `dist` of `CalcDistanceTable`, with the cap
`maxburstcost`: the returned `TotalCost` and `MaxBurstCost`, and the group ends. -/
def findOptimalBursts (dist : Nat → Nat → α) (n : Nat) (maxburstcost : α) :
    Option (α × α × List Nat) :=
  let calcmincap := decide (maxburstcost ≤ 0)
  let maxburstcost := if calcmincap then (findShortestPath max dist n).1 else maxburstcost
  let dist := capTable dist maxburstcost
  let (minenergy, groupends) := findShortestPath (· + ·) dist n
  if calcmincap then some (minenergy, maxburstcost, groupends)
  else (getRealMaxBurstCost dist n groupends).map fun m => (minenergy, m, groupends)

theorem segmentCosts_capTable (dist : Nat → Nat → α) (cap : α) (ends : List Nat) :
    segmentCosts (capTable dist cap) ends =
      (segmentCosts dist ends).map fun c => if c > cap then ⊤ else c := by
  simp [segmentCosts, capTable, List.map_map, Function.comp_def]

/-- A grouping whose bursts all stay within the cap does not see the capping. -/
theorem segmentCosts_capTable_of_le {dist : Nat → Nat → α} {cap : α} {ends : List Nat}
    (h : (segmentCosts dist ends).foldr max 0 ≤ cap) :
    segmentCosts (capTable dist cap) ends = segmentCosts dist ends := by
  rw [segmentCosts_capTable]
  exact (List.map_congr_left fun c hc => if_neg (not_lt.2 (foldr_max_le_iff.1 h c hc))).trans
    (List.map_id _)

/-- Partitioning the capped table with `+`: the grouping is a partition, its energy is at most
that of every partition whose bursts stay within the cap, and when it is finite, the grouping's
bursts stay within the cap and its energy is the result. -/
theorem capped_optimal (dist : Nat → Nat → α) {n : Nat} (hn : 0 < n) (cap : α) :
    Partition (n - 1) (findShortestPath (· + ·) (capTable dist cap) n).2 ∧
    (∀ ends, Partition (n - 1) ends → (segmentCosts dist ends).foldr max 0 ≤ cap →
      (findShortestPath (· + ·) (capTable dist cap) n).1 ≤ (segmentCosts dist ends).sum) ∧
    ((findShortestPath (· + ·) (capTable dist cap) n).1 < ⊤ →
      (segmentCosts dist (findShortestPath (· + ·) (capTable dist cap) n).2).sum =
        (findShortestPath (· + ·) (capTable dist cap) n).1 ∧
      (segmentCosts dist (findShortestPath (· + ·) (capTable dist cap) n).2).foldr max 0 ≤
        cap) := by
  have hmono : ∀ a b c : α, a ≤ b → a + c ≤ b + c := fun _ _ c h => add_le_add_right h c
  obtain ⟨hle, -, hfin⟩ : Optimal n (partitionCost (· + ·) (capTable dist cap))
      (findShortestPath (· + ·) (capTable dist cap) n) :=
    findShortestPath_optimal_of_mono hmono (fun c => top_le_iff.1 le_self_add) hn
  have hsum : ∀ ends, partitionCost (· + ·) (capTable dist cap) ends =
      (segmentCosts (capTable dist cap) ends).sum := fun _ => by
    rw [partitionCost, ← List.sum_eq_foldl]
  set r := findShortestPath (· + ·) (capTable dist cap) n
  refine ⟨findShortestPath_partition hmono hn, fun ends hp hcap => ?_, fun hlt => ?_⟩
  · rw [← segmentCosts_capTable_of_le hcap, ← hsum]
    exact hle ends hp
  · obtain ⟨-, hcost⟩ := hfin hlt
    rw [hsum] at hcost
    -- a burst above the cap would cost `⊤` in the capped table
    have hall : (segmentCosts dist r.2).foldr max 0 ≤ cap := foldr_max_le_iff.2 fun x hx => by
      by_contra hgt
      have : (⊤ : α) ≤ (segmentCosts (capTable dist cap) r.2).sum := List.le_sum_of_mem
        (by rw [segmentCosts_capTable]; exact List.mem_map.2 ⟨x, hx, if_pos (not_le.1 hgt)⟩)
      exact absurd hlt (not_lt.2 (hcost ▸ this))
    rw [segmentCosts_capTable_of_le hall] at hcost
    exact ⟨hcost, hall⟩

/-- With no cap given (`MaxBurstCost` of `0`), `FindOptimalBursts` reports as `MaxBurstCost`
the least cap any partition allows, and as `TotalCost` the least energy of a partition within
that cap, which its grouping attains when it is finite. -/
theorem findOptimalBursts_minCap (dist : Nat → Nat → α) {n : Nat} (hn : 0 < n) :
    ∃ totalCost maxBurst groupends,
      findOptimalBursts dist n 0 = some (totalCost, maxBurst, groupends) ∧
      Partition (n - 1) groupends ∧
      (∀ ends, Partition (n - 1) ends → maxBurst ≤ (segmentCosts dist ends).foldr max 0) ∧
      (∃ ends, Partition (n - 1) ends ∧ (segmentCosts dist ends).foldr max 0 = maxBurst) ∧
      (∀ ends, Partition (n - 1) ends → (segmentCosts dist ends).foldr max 0 ≤ maxBurst →
        totalCost ≤ (segmentCosts dist ends).sum) ∧
      (totalCost < ⊤ → (segmentCosts dist groupends).sum = totalCost ∧
        (segmentCosts dist groupends).foldr max 0 ≤ maxBurst) := by
  have hmax : ∀ ends, partitionCost max dist ends = (segmentCosts dist ends).foldr max 0 :=
    fun _ => List.foldl_eq_foldr _ _
  obtain ⟨hle, hex, -⟩ : Optimal n (partitionCost max dist) (findShortestPath max dist n) :=
    findShortestPath_optimal_of_mono (fun _ _ c h => max_le_max_right c h)
      (fun c => max_eq_left le_top) hn
  simp only [hmax] at hle hex
  obtain ⟨hp, hopt, hfin⟩ := capped_optimal dist hn (findShortestPath max dist n).1
  exact ⟨_, _, _, by simp [findOptimalBursts], hp, hle, hex, hopt, hfin⟩

example : findOptimalBursts burstDist 3 0 =
    some (((7 : Nat) : WithTop Nat), ((4 : Nat) : WithTop Nat), [0, 2]) := by
  decide

theorem burstDist_minCap : 0 < 3 ∧
    ∃ totalCost maxBurst groupends,
      findOptimalBursts burstDist 3 0 = some (totalCost, maxBurst, groupends) ∧
      Partition (3 - 1) groupends ∧
      (∀ ends, Partition (3 - 1) ends → maxBurst ≤ (segmentCosts burstDist ends).foldr max 0) ∧
      (∃ ends, Partition (3 - 1) ends ∧ (segmentCosts burstDist ends).foldr max 0 = maxBurst) ∧
      (∀ ends, Partition (3 - 1) ends → (segmentCosts burstDist ends).foldr max 0 ≤ maxBurst →
        totalCost ≤ (segmentCosts burstDist ends).sum) ∧
      (totalCost < ⊤ → (segmentCosts burstDist groupends).sum = totalCost ∧
        (segmentCosts burstDist groupends).foldr max 0 ≤ maxBurst) :=
  ⟨by decide, findOptimalBursts_minCap burstDist (by decide)⟩

/-- With a cap above `0`, `FindOptimalBursts` returns the partition of the capped table and
the dearest of its capped bursts. -/
theorem findOptimalBursts_of_pos (dist : Nat → Nat → α) {n : Nat} (hn : 0 < n) {cap : α}
    (hcap : 0 < cap) :
    findOptimalBursts dist n cap = some ((findShortestPath (· + ·) (capTable dist cap) n).1,
      (segmentCosts (capTable dist cap) (findShortestPath (· + ·) (capTable dist cap) n).2).foldr
        max 0, (findShortestPath (· + ·) (capTable dist cap) n).2) := by
  simp only [findOptimalBursts, not_le.2 hcap, decide_False, Bool.false_eq_true, if_false,
    getRealMaxBurstCost_eq (capTable dist cap) hn (capped_optimal dist hn cap).1,
    Option.map_some']

/-- With a cap above `0`, `TotalCost` is the least energy of a partition whose bursts stay
within the cap; when it is finite, the grouping attains it and `MaxBurstCost` is the dearest
burst of the grouping, which stays within the cap. -/
theorem findOptimalBursts_cap (dist : Nat → Nat → α) {n : Nat} (hn : 0 < n) {cap : α}
    (hcap : 0 < cap) :
    ∃ totalCost maxBurst groupends,
      findOptimalBursts dist n cap = some (totalCost, maxBurst, groupends) ∧
      Partition (n - 1) groupends ∧
      (∀ ends, Partition (n - 1) ends → (segmentCosts dist ends).foldr max 0 ≤ cap →
        totalCost ≤ (segmentCosts dist ends).sum) ∧
      (totalCost < ⊤ → (segmentCosts dist groupends).sum = totalCost ∧
        maxBurst = (segmentCosts dist groupends).foldr max 0 ∧ maxBurst ≤ cap) := by
  obtain ⟨hp, hopt, hfin⟩ := capped_optimal dist hn cap
  refine ⟨_, _, _, findOptimalBursts_of_pos dist hn hcap, hp, hopt, fun hlt => ?_⟩
  obtain ⟨hsum, hle⟩ := hfin hlt
  rw [segmentCosts_capTable_of_le hle]
  exact ⟨hsum, rfl, hle⟩

/-- A cap of `3` leaves no partition of `burstDist` with finite bursts. -/
example : (findOptimalBursts burstDist 3 ((3 : Nat) : WithTop Nat)).map (·.1) = some ⊤ := by
  decide

theorem burstDist_cap : 0 < 3 ∧ (0 : WithTop Nat) < ((20 : Nat) : WithTop Nat) ∧
    ∃ totalCost maxBurst groupends,
      findOptimalBursts burstDist 3 ((20 : Nat) : WithTop Nat) =
        some (totalCost, maxBurst, groupends) ∧
      Partition (3 - 1) groupends ∧
      (∀ ends, Partition (3 - 1) ends →
        (segmentCosts burstDist ends).foldr max 0 ≤ ((20 : Nat) : WithTop Nat) →
        totalCost ≤ (segmentCosts burstDist ends).sum) ∧
      (totalCost < ⊤ → (segmentCosts burstDist groupends).sum = totalCost ∧
        maxBurst = (segmentCosts burstDist groupends).foldr max 0 ∧
        maxBurst ≤ ((20 : Nat) : WithTop Nat)) :=
  ⟨by decide, by decide, findOptimalBursts_cap burstDist (by decide) (by decide)⟩

end CappedOptimal

end Transient

end Ladybirds
