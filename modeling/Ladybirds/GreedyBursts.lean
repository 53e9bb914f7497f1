import Mathlib
import Ladybirds.Bursts

/-! # Greedy bursts

`FindGreedyBursts` cuts the task sequence in one pass: a group from node `s` takes nodes while the
energy `dist[s][k]` stays within the cap. The groups partition the tasks, and when every task fits
the cap alone `FindOptimalBursts` never reports more energy than `FindGreedyBursts`.
-/

namespace Ladybirds

namespace Transient

section Greedy

variable {α : Type} [CanonicallyLinearOrderedAddCommMonoid α]

/-- The inner loop of `FindGreedyBursts` for the group that starts at `s`: `curcost` is the
energy of the group so far and `last` its last node; a node `k` joins while
`dist[s][k] ≤ maxburstcost`. Returns `curcost`, `last` and the nodes left. -/
def greedyGroup (dist : Nat → Nat → α) (maxburstcost : α) (s : Nat) :
    α → Nat → List Nat → α × Nat × List Nat
  | curcost, last, [] => (curcost, last, [])
  | curcost, last, k :: ks =>
    let d := dist s k
    if d > maxburstcost then (curcost, last, k :: ks)
    else greedyGroup dist maxburstcost s d k ks

/-- The outer loop of `FindGreedyBursts` over the nodes not grouped yet, with `totalcost` and
`groupends`; each round closes one group, and `fuel` bounds the number of rounds. -/
def greedyLoop (dist : Nat → Nat → α) (maxburstcost : α) :
    Nat → List Nat → α → List Nat → Option (α × List Nat)
  | _, [], totalcost, groupends => some (totalcost, groupends)
  | 0, _ :: _, _, _ => none
  | fuel + 1, s :: rest, totalcost, groupends =>
    let (curcost, last, rest) := greedyGroup dist maxburstcost s (dist s s) s rest
    greedyLoop dist maxburstcost fuel rest (totalcost + curcost) (groupends ++ [last])

/-- `FindGreedyBursts` on the table `dist` of `CalcDistanceTable`: `TotalCost`,
`MaxBurstCost` and the group ends. `std::max_element` over no task is undefined: `none`. -/
def findGreedyBursts (dist : Nat → Nat → α) (n : Nat) (maxburstcost : α) :
    Option (α × α × List Nat) := do
  let calcmincap := decide (maxburstcost ≤ 0)
  let maxburstcost ← (if calcmincap then ((List.range n).map fun k => dist k k).max?
    else some maxburstcost)
  let (totalcost, groupends) ← greedyLoop dist maxburstcost n (List.range n) 0 []
  if calcmincap then some (totalcost, maxburstcost, groupends)
  else (getRealMaxBurstCost dist n groupends).map fun m => (totalcost, m, groupends)

/-- The group that starts at `s`, with `last` taken so far, ends at some `e`: every node up to
`e` keeps the burst within the cap, and the node after `e`, if there is one, does not. -/
theorem greedyGroup_spec (dist : Nat → Nat → α) (cap : α) (s : Nat) :
    ∀ m k last, last + 1 = k → ∃ e, last ≤ e ∧ e < k + m ∧
      greedyGroup dist cap s (dist s last) last (List.range' k m) =
        (dist s e, e, List.range' (e + 1) (k + m - (e + 1))) ∧
      (∀ j, k ≤ j → j ≤ e → dist s j ≤ cap) ∧ (e + 1 < k + m → cap < dist s (e + 1))
  | 0, k, last, h => ⟨last, le_rfl, by omega, by subst h; simp [greedyGroup], fun j _ _ => by omega,
      fun _ => by omega⟩
  | m + 1, k, last, h => by
    rw [List.range'_succ, greedyGroup]
    by_cases hgt : dist s k > cap
    · refine ⟨last, le_rfl, by omega, ?_, fun j _ _ => by omega, fun _ => h ▸ hgt⟩
      rw [if_pos hgt, ← h, show last + 1 + (m + 1) - (last + 1) = m + 1 by omega,
        List.range'_succ]
    · obtain ⟨e, hke, he, hg, hin, hout⟩ := greedyGroup_spec dist cap s m (k + 1) k rfl
      refine ⟨e, by omega, by omega, ?_, fun j hj hje => ?_, fun he' => hout (by omega)⟩
      · rw [if_neg hgt, hg, show k + 1 + m = k + (m + 1) by omega]
      · rcases Nat.eq_or_lt_of_le hj with rfl | hj
        · exact not_lt.1 hgt
        · exact hin j hj hje

/-- The groups closed before node `s`: they partition `0, …, s-1`, each takes every node up to
its end within the cap, and each stops at a node that would exceed the cap. -/
structure GreedyGroups (dist : Nat → Nat → α) (cap : α) (n s : Nat) (ends : List Nat) :
    Prop where
  partition : s = 0 ∧ ends = [] ∨ 0 < s ∧ Partition (s - 1) ends
  within : ∀ p ∈ segments 0 ends, ∀ j, p.1 < j → j ≤ p.2 → dist p.1 j ≤ cap
  maximal : ∀ p ∈ segments 0 ends, p.2 + 1 < n → cap < dist p.1 (p.2 + 1)

theorem segments_append_start {s : Nat} {ends : List Nat}
    (h : s = 0 ∧ ends = [] ∨ 0 < s ∧ Partition (s - 1) ends) (e : Nat) :
    segments 0 (ends ++ [e]) = segments 0 ends ++ [(s, e)] := by
  rw [segments_concat]
  rcases h with ⟨rfl, rfl⟩ | ⟨hs, hp⟩
  · rfl
  · rw [hp.getLast?, Option.map_some', Option.getD_some, Nat.sub_add_cancel hs]

theorem GreedyGroups.empty (dist : Nat → Nat → α) (cap : α) (n : Nat) :
    GreedyGroups dist cap n 0 [] :=
  ⟨.inl ⟨rfl, rfl⟩, fun _ h => absurd h (List.not_mem_nil _),
    fun _ h => absurd h (List.not_mem_nil _)⟩

/-- Closing the group `[s, e]` that `greedyGroup` returns keeps the invariant. -/
theorem GreedyGroups.close {dist : Nat → Nat → α} {cap : α} {n s e : Nat} {ends : List Nat}
    (hg : GreedyGroups dist cap n s ends) (hse : s ≤ e)
    (hin : ∀ j, s < j → j ≤ e → dist s j ≤ cap) (hout : e + 1 < n → cap < dist s (e + 1)) :
    GreedyGroups dist cap n (e + 1) (ends ++ [e]) := by
  have hseg := segments_append_start hg.partition e
  refine ⟨.inr ⟨by omega, ?_⟩, fun p hp => ?_, fun p hp => ?_⟩
  · rcases hg.partition with ⟨rfl, rfl⟩ | ⟨hs, hp⟩
    · exact .single e
    · exact .snoc hp (by omega)
  all_goals
    rw [hseg, List.mem_append, List.mem_singleton] at hp
    rcases hp with hp | rfl
  · exact hg.within p hp
  · exact hin
  · exact hg.maximal p hp
  · exact hout

/-- The energy of the groups grows by the energy of the group closed last. -/
theorem partitionCost_close (combine : α → α → α) (dist : Nat → Nat → α) {s : Nat}
    {ends : List Nat} (h : s = 0 ∧ ends = [] ∨ 0 < s ∧ Partition (s - 1) ends) (e : Nat) :
    partitionCost combine dist (ends ++ [e]) =
      combine (partitionCost combine dist ends) (dist s e) := by
  simp [partitionCost, segmentCosts, segments_append_start h]

/-- The outer loop closes groups until no node is left, and `totalcost` is their energy. -/
theorem greedyLoop_spec (dist : Nat → Nat → α) (cap : α) (n : Nat) :
    ∀ fuel s groupends, n - s ≤ fuel → s ≤ n → GreedyGroups dist cap n s groupends →
      ∃ ends, greedyLoop dist cap fuel (List.range' s (n - s))
          (partitionCost (· + ·) dist groupends) groupends =
        some (partitionCost (· + ·) dist ends, ends) ∧ GreedyGroups dist cap n n ends
  | 0, s, groupends, hf, hs, hg => by
    obtain rfl : s = n := by omega
    exact ⟨groupends, by simp [greedyLoop], hg⟩
  | fuel + 1, s, groupends, hf, hs, hg => by
    rcases Nat.eq_or_lt_of_le hs with rfl | hlt
    · exact ⟨groupends, by simp [greedyLoop], hg⟩
    obtain ⟨e, hse, hen, hgrp, hin, hout⟩ :=
      greedyGroup_spec dist cap s (n - s - 1) (s + 1) s rfl
    have hrest : s + 1 + (n - s - 1) - (e + 1) = n - (e + 1) := by omega
    rw [show n - s = n - s - 1 + 1 by omega, List.range'_succ, greedyLoop, hgrp, hrest]
    dsimp only
    rw [← partitionCost_close (· + ·) dist hg.partition e]
    exact greedyLoop_spec dist cap n fuel (e + 1) _ (by omega) (by omega)
      (hg.close hse (fun j hj => hin j hj) fun h => hout (by omega))

/-- The segments of a partition of `0, …, j` are intervals inside it. -/
theorem Partition.mem_segments {j : Nat} {ends : List Nat} (h : Partition j ends) :
    ∀ p ∈ segments 0 ends, p.1 ≤ p.2 ∧ p.2 ≤ j := by
  induction h with
  | single j => simp [segments]
  | @snoc m j ends h hmj ih =>
    intro p hp
    rw [segments_append_start (.inr ⟨Nat.succ_pos m, h⟩), List.mem_append,
      List.mem_singleton] at hp
    rcases hp with hp | rfl
    · exact ⟨(ih p hp).1, (ih p hp).2.trans hmj.le⟩
    · exact ⟨hmj, le_rfl⟩

/-- From the first node, the loop closes groups that partition all `n` nodes. -/
theorem greedyLoop_range (dist : Nat → Nat → α) (cap : α) {n : Nat} (hn : 0 < n) :
    ∃ ends, greedyLoop dist cap n (List.range n) 0 [] = some ((segmentCosts dist ends).sum, ends) ∧
      Partition (n - 1) ends ∧ GreedyGroups dist cap n n ends := by
  obtain ⟨ends, h, hg⟩ :=
    greedyLoop_spec dist cap n n 0 [] (by omega) (Nat.zero_le n) (GreedyGroups.empty dist cap n)
  rw [Nat.sub_zero, ← List.range_eq_range'] at h
  refine ⟨ends, by rw [List.sum_eq_foldl]; exact h, ?_, hg⟩
  rcases hg.partition with ⟨rfl, -⟩ | ⟨-, hp⟩
  · omega
  · exact hp

/-- On `n > 0` tasks `std::max_element` finds the dearest single task. -/
theorem exists_maxDiag (dist : Nat → Nat → α) {n : Nat} (hn : 0 < n) :
    ∃ m, ((List.range n).map fun k => dist k k).max? = some m :=
  Option.ne_none_iff_exists'.1 fun h => by
    rw [List.max?_eq_none_iff, List.map_eq_nil_iff, List.range_eq_nil] at h; omega

/-- Three tasks whose energies make the greedy groups dearer than the optimal ones under the
cap `5`: the first task takes the second, which then cannot share a burst with the third. -/
def twoWays (i j : Nat) : WithTop Nat :=
  match i, j with
  | 0, 0 => (1 : Nat)
  | 0, 1 => (4 : Nat)
  | 0, 2 => (9 : Nat)
  | 1, 1 => (5 : Nat)
  | 1, 2 => (1 : Nat)
  | 2, 2 => (3 : Nat)
  | _, _ => ⊤

/-- Without a cap (`MaxBurstCost` of `0`), `FindGreedyBursts` reports as `MaxBurstCost` the
dearest single task, partitions the tasks into groups whose every prefix stays within it, ends
each group at a task that would exceed it, and reports the energy of the groups as
`TotalCost`. -/
theorem findGreedyBursts_minCap (dist : Nat → Nat → α) {n : Nat} (hn : 0 < n) :
    ∃ totalCost maxBurst groupends,
      findGreedyBursts dist n 0 = some (totalCost, maxBurst, groupends) ∧
      Partition (n - 1) groupends ∧ (segmentCosts dist groupends).sum = totalCost ∧
      (∀ k < n, dist k k ≤ maxBurst) ∧ (∃ k < n, dist k k = maxBurst) ∧
      (∀ p ∈ segments 0 groupends, ∀ j, p.1 ≤ j → j ≤ p.2 → dist p.1 j ≤ maxBurst) ∧
      (∀ p ∈ segments 0 groupends, p.2 + 1 < n → maxBurst < dist p.1 (p.2 + 1)) := by
  obtain ⟨m, hm⟩ := exists_maxDiag dist hn
  have hmem := List.max?_mem max_choice hm
  have hle := (List.max?_le_iff (fun _ _ _ => max_le_iff) hm).1 le_rfl
  simp only [List.mem_map, List.mem_range, forall_exists_index, and_imp,
    forall_apply_eq_imp_iff₂] at hmem hle
  obtain ⟨ends, hloop, hp, hg⟩ := greedyLoop_range dist m hn
  refine ⟨_, m, ends, by simp [findGreedyBursts, hm, hloop], hp, rfl, hle, hmem,
    fun q hq j hj hjq => ?_, hg.maximal⟩
  rcases Nat.eq_or_lt_of_le hj with rfl | hj
  · exact hle _ (by have := hp.mem_segments q hq; omega)
  · exact hg.within q hq j hj hjq

example : findGreedyBursts twoWays 3 0 =
    some (((7 : Nat) : WithTop Nat), ((5 : Nat) : WithTop Nat), [1, 2]) := by
  decide

theorem twoWays_greedy_minCap :
    0 < 3 ∧ ∃ totalCost maxBurst groupends,
      findGreedyBursts twoWays 3 0 = some (totalCost, maxBurst, groupends) ∧
      Partition (3 - 1) groupends ∧ (segmentCosts twoWays groupends).sum = totalCost ∧
      (∀ k < 3, twoWays k k ≤ maxBurst) ∧ (∃ k < 3, twoWays k k = maxBurst) ∧
      (∀ p ∈ segments 0 groupends, ∀ j, p.1 ≤ j → j ≤ p.2 → twoWays p.1 j ≤ maxBurst) ∧
      (∀ p ∈ segments 0 groupends, p.2 + 1 < 3 → maxBurst < twoWays p.1 (p.2 + 1)) :=
  ⟨by decide, findGreedyBursts_minCap twoWays (by decide)⟩

/-- With a cap above `0`, `FindGreedyBursts` reports the groups of its loop with their energy and
their dearest burst. -/
theorem findGreedyBursts_of_pos {dist : Nat → Nat → α} {n : Nat} (hn : 0 < n) {cap : α}
    (hcap : 0 < cap) {ends : List Nat}
    (hloop : greedyLoop dist cap n (List.range n) 0 [] = some ((segmentCosts dist ends).sum, ends))
    (hp : Partition (n - 1) ends) :
    findGreedyBursts dist n cap =
      some ((segmentCosts dist ends).sum, (segmentCosts dist ends).foldr max 0, ends) := by
  simp only [findGreedyBursts, not_le.2 hcap, decide_False, Bool.false_eq_true, if_false,
    Option.bind_eq_bind, Option.some_bind, hloop, getRealMaxBurstCost_eq dist hn hp,
    Option.map_some']

/-- With a cap above `0`, `FindGreedyBursts` partitions the tasks into groups whose every
prefix of two tasks or more stays within the cap, ends each group at a task that would exceed
it, and reports the energy of the groups as `TotalCost` and their dearest burst as
`MaxBurstCost`. -/
theorem findGreedyBursts_cap (dist : Nat → Nat → α) {n : Nat} (hn : 0 < n) {cap : α}
    (hcap : 0 < cap) :
    ∃ totalCost maxBurst groupends,
      findGreedyBursts dist n cap = some (totalCost, maxBurst, groupends) ∧
      Partition (n - 1) groupends ∧ (segmentCosts dist groupends).sum = totalCost ∧
      maxBurst = (segmentCosts dist groupends).foldr max 0 ∧
      (∀ p ∈ segments 0 groupends, ∀ j, p.1 < j → j ≤ p.2 → dist p.1 j ≤ cap) ∧
      (∀ p ∈ segments 0 groupends, p.2 + 1 < n → cap < dist p.1 (p.2 + 1)) := by
  obtain ⟨ends, hloop, hp, hg⟩ := greedyLoop_range dist cap hn
  exact ⟨_, _, ends, findGreedyBursts_of_pos hn hcap hloop hp, hp, rfl, rfl, hg.within,
    hg.maximal⟩

example : findGreedyBursts twoWays 3 ((5 : Nat) : WithTop Nat) =
    some (((7 : Nat) : WithTop Nat), ((4 : Nat) : WithTop Nat), [1, 2]) := by
  decide

theorem twoWays_greedy_cap :
    0 < 3 ∧ (0 : WithTop Nat) < ((5 : Nat) : WithTop Nat) ∧ ∃ totalCost maxBurst groupends,
      findGreedyBursts twoWays 3 ((5 : Nat) : WithTop Nat) = some (totalCost, maxBurst, groupends) ∧
      Partition (3 - 1) groupends ∧ (segmentCosts twoWays groupends).sum = totalCost ∧
      maxBurst = (segmentCosts twoWays groupends).foldr max 0 ∧
      (∀ p ∈ segments 0 groupends, ∀ j, p.1 < j → j ≤ p.2 →
        twoWays p.1 j ≤ ((5 : Nat) : WithTop Nat)) ∧
      (∀ p ∈ segments 0 groupends, p.2 + 1 < 3 →
        ((5 : Nat) : WithTop Nat) < twoWays p.1 (p.2 + 1)) :=
  ⟨by decide, by decide, findGreedyBursts_cap twoWays (by decide) (by decide)⟩

end Greedy

section Compare

variable {α : Type} [CanonicallyLinearOrderedAddCommMonoid α] [OrderTop α]

/-- When every task fits in the cap alone, the greedy groups are a partition within the cap,
so `FindOptimalBursts` reports at most the energy that `FindGreedyBursts` reports. -/
theorem findOptimalBursts_le_greedy (dist : Nat → Nat → α) {n : Nat} (hn : 0 < n) {cap : α}
    (hcap : 0 < cap) (hdiag : ∀ k < n, dist k k ≤ cap) :
    ∃ optimal greedy, findOptimalBursts dist n cap = some optimal ∧
      findGreedyBursts dist n cap = some greedy ∧ optimal.1 ≤ greedy.1 := by
  obtain ⟨ends, hloop, hp, hg⟩ := greedyLoop_range dist cap hn
  have hwithin : (segmentCosts dist ends).foldr max 0 ≤ cap := by
    refine foldr_max_le_iff.2 fun c hc => ?_
    obtain ⟨q, hq, rfl⟩ := List.mem_map.1 hc
    obtain ⟨hle, hlast⟩ := hp.mem_segments q hq
    rcases Nat.eq_or_lt_of_le hle with h | h
    · exact h ▸ hdiag _ (by omega)
    · exact hg.within q hq _ h le_rfl
  exact ⟨_, _, findOptimalBursts_of_pos dist hn hcap, findGreedyBursts_of_pos hn hcap hloop hp,
    (capped_optimal dist hn cap).2.1 ends hp hwithin⟩

example : findOptimalBursts twoWays 3 ((5 : Nat) : WithTop Nat) =
    some (((2 : Nat) : WithTop Nat), ((1 : Nat) : WithTop Nat), [0, 2]) := by
  decide

theorem twoWays_optimal_le_greedy :
    0 < 3 ∧ (0 : WithTop Nat) < ((5 : Nat) : WithTop Nat) ∧
    (∀ k < 3, twoWays k k ≤ ((5 : Nat) : WithTop Nat)) ∧
    ∃ optimal greedy, findOptimalBursts twoWays 3 ((5 : Nat) : WithTop Nat) = some optimal ∧
      findGreedyBursts twoWays 3 ((5 : Nat) : WithTop Nat) = some greedy ∧ optimal.1 ≤ greedy.1 :=
  ⟨by decide, by decide, by decide, findOptimalBursts_le_greedy twoWays (by decide) (by decide)
    (by decide)⟩

end Compare

theorem findGreedyBursts_partition {α : Type} [CanonicallyLinearOrderedAddCommMonoid α]
    (dist : Nat → Nat → α) {n : Nat} (hn : 0 < n) (cap : α) :
    ∃ r, findGreedyBursts dist n cap = some r ∧ Partition (n - 1) r.2.2 := by
  rcases eq_or_lt_of_le (zero_le cap) with rfl | hcap
  · obtain ⟨m, hm⟩ := exists_maxDiag dist hn
    obtain ⟨ends, hloop, hp, -⟩ := greedyLoop_range dist m hn
    exact ⟨((segmentCosts dist ends).sum, m, ends), by simp [findGreedyBursts, hm, hloop], hp⟩
  · obtain ⟨ends, hloop, hp, -⟩ := greedyLoop_range dist cap hn
    exact ⟨_, findGreedyBursts_of_pos hn hcap hloop hp, hp⟩

/-! ## Groups

`GroupForTransient` orders the tasks (`EstablishExecutionOrder`), runs one of the two burst
searches on the distance table of the ordered tasks and then cuts the task list after each
group end. -/

/-- The loop of `GroupForTransient` that fills `prog.Groups`: each task joins the open group,
which is closed at the task `*groupend` points to. Reading `*groupend` past the last group end
is undefined (`none`); a group still open at the end is dropped with `upgroup`. -/
def buildGroups : List Nat → List Nat → List Nat → Option (List (List Nat))
  | [], _, _ => some []
  | _ :: _, [], _ => none
  | t :: ts, e :: es, group =>
    if t = e then (buildGroups ts es []).map ((group ++ [t]) :: ·)
    else buildGroups ts (e :: es) (group ++ [t])

/-- Nodes before the group's end only join the open group. -/
theorem buildGroups_inside (e : Nat) (es rest : List Nat) :
    ∀ m s group, s + m ≤ e → buildGroups (List.range' s m ++ rest) (e :: es) group =
      buildGroups rest (e :: es) (group ++ List.range' s m)
  | 0, _, group, _ => by simp
  | m + 1, s, group, h => by
    rw [List.range'_succ, List.cons_append, buildGroups, if_neg (by omega),
      buildGroups_inside e es rest m (s + 1) _ (by omega), List.append_assoc, List.singleton_append]

/-- Group ends that rise strictly from `s` cut the nodes `s, …, N-1`, where `N - 1` is the last
end, into the segments `s, …, e`. -/
theorem buildGroups_segments :
    ∀ (ends : List Nat) (s N : Nat), ends.Pairwise (· < ·) → (∀ e ∈ ends, s ≤ e) →
      (ends.getLast?.map (· + 1)).getD s = N →
      buildGroups (List.range' s (N - s)) ends [] =
        some ((segments s ends).map fun p => List.range' p.1 (p.2 + 1 - p.1))
  | [], s, N, _, _, hN => by
    subst hN
    simp [buildGroups, segments]
  | e :: es, s, N, hpw, hge, hN => by
    rw [List.pairwise_cons] at hpw
    have hse := hge e (List.mem_cons_self e es)
    have hN' : (es.getLast?.map (· + 1)).getD (e + 1) = N := by
      cases h : es.getLast? with
      | none => rw [List.getLast?_eq_none_iff] at h; subst h; simpa using hN
      | some l => rw [← hN, List.getLast?_cons, h]; rfl
    have heN : e + 1 ≤ N := by
      cases h : es.getLast? with
      | none => rw [h] at hN'; simp at hN'; omega
      | some l => rw [h] at hN'; simp at hN'; have := hpw.1 l (List.mem_of_mem_getLast? h); omega
    have hsplit : List.range' s (N - s) =
        List.range' s (e - s) ++ e :: List.range' (e + 1) (N - (e + 1)) := by
      have := List.range'_append_1 s (e - s) (N - (e + 1) + 1)
      rw [show s + (e - s) = e by omega, show N - (e + 1) + 1 + (e - s) = N - s by omega] at this
      rw [← List.range'_succ, this]
    have hgroup : List.range' s (e - s) ++ [e] = List.range' s (e + 1 - s) := by
      rw [show e + 1 - s = e - s + 1 by omega, List.range'_concat,
        show s + 1 * (e - s) = e by omega]
    rw [hsplit, buildGroups_inside e es _ (e - s) s [] (by omega), buildGroups, if_pos rfl,
      buildGroups_segments es (e + 1) N hpw.2 (fun x hx => hpw.1 x hx) hN', Option.map_some',
      List.nil_append, hgroup]
    rfl

/-- A partition's ends rise strictly and stay within its last node. -/
theorem Partition.pairwise {j : Nat} {ends : List Nat} (h : Partition j ends) :
    ends.Pairwise (· < ·) ∧ ∀ e ∈ ends, e ≤ j := by
  induction h with
  | single j => simp
  | @snoc m j ends h hmj ih =>
    refine ⟨List.pairwise_append.2 ⟨ih.1, by simp, fun a ha b hb => ?_⟩, fun e he => ?_⟩
    · rw [List.mem_singleton] at hb; subst hb; exact (ih.2 a ha).trans_lt hmj
    · rcases List.mem_append.1 he with he | he
      · exact (ih.2 e he).trans hmj.le
      · rw [List.mem_singleton.1 he]

/-- The segments of a partition of `0, …, j` cover the nodes in order. -/
theorem Partition.flatten_segments {j : Nat} {ends : List Nat} (h : Partition j ends) :
    ((segments 0 ends).map fun p => List.range' p.1 (p.2 + 1 - p.1)).flatten =
      List.range (j + 1) := by
  induction h with
  | single j => simp [segments, List.range_eq_range']
  | @snoc m j ends h hmj ih =>
    rw [segments_append_start (.inr ⟨Nat.succ_pos m, h⟩), List.map_append, List.flatten_append,
      ih, List.map_singleton, List.flatten_singleton, List.range_eq_range', List.range_eq_range']
    have := List.range'_append_1 0 (m + 1) (j - m)
    rw [Nat.zero_add, show j - m + (m + 1) = j + 1 by omega] at this
    rw [← this, Nat.succ_eq_add_one, show j + 1 - (m + 1) = j - m by omega]

/-- On a partition of the `n` tasks, the groups are its segments. -/
theorem buildGroups_partition {n : Nat} {ends : List Nat} (hp : Partition (n - 1) ends)
    (hn : 0 < n) :
    buildGroups (List.range n) ends [] =
      some ((segments 0 ends).map fun p => List.range' p.1 (p.2 + 1 - p.1)) := by
  have := buildGroups_segments ends 0 n hp.pairwise.1 (fun _ _ => Nat.zero_le _)
    (by rw [hp.getLast?]; simp; omega)
  rwa [Nat.sub_zero, ← List.range_eq_range'] at this

section Pass

variable {α : Type} [CanonicallyLinearOrderedAddCommMonoid α] [OrderTop α]

/-- The part of `GroupForTransient` after the tasks are ordered: `FindGreedyBursts` or
`FindOptimalBursts` by `args.Greedy` on the distance table of the ordered tasks, then the
groups, with `TotalCost` and `MaxBurstCost`. -/
def groupForTransient (greedy : Bool) (dist : Nat → Nat → α) (n : Nat) (maxburstcost : α) :
    Option (List (List Nat) × α × α) := do
  let (totalCost, maxBurstCost, groupends) ← (if greedy then findGreedyBursts dist n maxburstcost
    else findOptimalBursts dist n maxburstcost)
  let groups ← buildGroups (List.range n) groupends []
  some (groups, totalCost, maxBurstCost)

theorem findOptimalBursts_partition (dist : Nat → Nat → α) {n : Nat} (hn : 0 < n) (cap : α) :
    ∃ r, findOptimalBursts dist n cap = some r ∧ Partition (n - 1) r.2.2 := by
  rcases eq_or_lt_of_le (zero_le cap) with rfl | hcap
  · exact ⟨_, by simp [findOptimalBursts]; rfl, (capped_optimal dist hn _).1⟩
  · exact ⟨_, findOptimalBursts_of_pos dist hn hcap, (capped_optimal dist hn cap).1⟩

/-- Whichever search `args.Greedy` picks and whatever the cap, `GroupForTransient` puts every
task into exactly one group: the groups are non-empty and, in order, list the tasks in their
order. -/
theorem groupForTransient_groups (greedy : Bool) (dist : Nat → Nat → α) {n : Nat} (hn : 0 < n)
    (maxburstcost : α) :
    ∃ groups totalCost maxBurst,
      groupForTransient greedy dist n maxburstcost = some (groups, totalCost, maxBurst) ∧
      groups.flatten = List.range n ∧ ∀ g ∈ groups, g ≠ [] := by
  obtain ⟨⟨totalCost, maxBurst, ends⟩, hr, hp⟩ : ∃ r, (if greedy then
      findGreedyBursts dist n maxburstcost else findOptimalBursts dist n maxburstcost) = some r ∧
      Partition (n - 1) r.2.2 := by
    cases greedy
    · exact findOptimalBursts_partition dist hn maxburstcost
    · exact findGreedyBursts_partition dist hn maxburstcost
  refine ⟨(segments 0 ends).map fun p => List.range' p.1 (p.2 + 1 - p.1), totalCost, maxBurst, ?_,
    ?_, fun g hg => ?_⟩
  · simp only [groupForTransient, hr, Option.bind_eq_bind, Option.some_bind,
      buildGroups_partition hp hn]
  · rw [hp.flatten_segments, Nat.sub_add_cancel hn]
  · obtain ⟨q, hq, rfl⟩ := List.mem_map.1 hg
    have := (hp.mem_segments q hq).1
    simp only [ne_eq, List.range'_eq_nil]
    omega

example : groupForTransient true twoWays 3 ((5 : Nat) : WithTop Nat) =
    some ([[0, 1], [2]], ((7 : Nat) : WithTop Nat), ((4 : Nat) : WithTop Nat)) := by
  decide

example : groupForTransient false twoWays 3 ((5 : Nat) : WithTop Nat) =
    some ([[0], [1, 2]], ((2 : Nat) : WithTop Nat), ((1 : Nat) : WithTop Nat)) := by
  decide

theorem twoWays_groups : 0 < 3 ∧ ∃ groups totalCost maxBurst,
    groupForTransient true twoWays 3 ((5 : Nat) : WithTop Nat) =
      some (groups, totalCost, maxBurst) ∧
      groups.flatten = List.range 3 ∧ ∀ g ∈ groups, g ≠ [] :=
  ⟨by decide, groupForTransient_groups true twoWays (by decide) _⟩

end Pass

end Transient

end Ladybirds
