import Ladybirds.TopoSort

/-! # Strongly connected components

`StronglyConnected` is Gabow's path-based depth-first search: the path holds the visited nodes not
yet in a component and `roots` the positions where its blocks begin. Nodes are numbers, `tags` a
function, and the top of an empty root stack is undefined (`none`).
-/

namespace Ladybirds

open BufferAllocation (TaskGraph)

/-- A path of edges, possibly empty. -/
def BufferAllocation.TaskGraph.Reaches (g : TaskGraph) : Nat → Nat → Prop :=
  Relation.ReflTransGen fun a b => (a, b) ∈ g.edges

namespace StronglyConnected

/-- The targets of the out-edges of `v`, in the order of the edges. -/
def outEdges (g : TaskGraph) (v : Nat) : List Nat := (g.edges.filter (·.1 = v)).map (·.2)

/-- `tags[n]`: 0 for a node not yet visited, its position on the path (from 1), or one of the
sentinels `singletag` and `scctag`. -/
inductive Tag where
  | unvisited
  | onPath (p : Nat)
  | single
  | scc
  deriving DecidableEq, Repr

/-- `roots.back() > tag` for a root `r`: the sentinels exceed every position. -/
def Tag.lt : Tag → Nat → Bool
  | .unvisited, r => 0 < r
  | .onPath p, r => p < r
  | _, _ => false

/-- The members of `DfsAlgo`: `roots` with its top first. -/
structure DfsAlgo where
  path : List Nat
  roots : List Nat
  sccs : List (List Nat)
  tags : Nat → Tag

def DfsAlgo.init : DfsAlgo := ⟨[], [], [], fun _ => .unvisited⟩

/-- `while(roots.back() > n1tag) roots.pop_back();` -/
def popRoots (t : Tag) : List Nat → Option (List Nat)
  | [] => none
  | r :: rs => if t.lt r then popRoots t rs else some (r :: rs)

/-- The end of `dfs(n)`, once its out-edges are done. -/
def finish (n : Nat) (cycles : Bool) (st : DfsAlgo) : Option DfsAlgo :=
  match st.roots with
  | [] => none
  | r :: rs =>
    if st.tags n = .onPath r then
      if r = st.path.length ∧ cycles = false then
        some { st with
          roots := rs
          tags := Function.update st.tags n .single
          path := st.path.dropLast }
      else
        let comp := st.path.drop (r - 1)
        some {
          path := st.path.take (r - 1)
          roots := rs
          sccs := st.sccs ++ [comp]
          tags := fun u => if u ∈ comp then .scc else st.tags u }
    else some st

/-- The loop of `dfs(n)` over the out-edge to `n1`, with the flag `cycles`. -/
def visitEdge (dfs : Nat → DfsAlgo → Option DfsAlgo) (n : Nat) (acc : DfsAlgo × Bool) (n1 : Nat) :
    Option (DfsAlgo × Bool) :=
  match acc.1.tags n1 with
  | .unvisited => (dfs n1 acc.1).map (·, acc.2)
  | t => (popRoots t acc.1.roots).map fun rs => ({ acc.1 with roots := rs }, acc.2 || n1 == n)

/-- The start of `dfs(n)`: `n` goes on the path and its position on the roots. -/
def push (st : DfsAlgo) (n : Nat) : DfsAlgo :=
  { st with
    path := st.path ++ [n]
    roots := (st.path.length + 1) :: st.roots
    tags := Function.update st.tags n (.onPath (st.path.length + 1)) }

/-- `dfs(n)`; `fuel` bounds the depth of the recursion. -/
def dfs (g : TaskGraph) : Nat → Nat → DfsAlgo → Option DfsAlgo
  | 0, _, _ => none
  | fuel + 1, n, st =>
    (outEdges g n).foldlM (visitEdge (dfs g fuel) n) (push st n, false) >>= fun r =>
      finish n r.2 r.1

/-- `StronglyConnected(g, &singles)`: the components and the single nodes. -/
def stronglyConnected (g : TaskGraph) : Option (List (List Nat) × List Nat) := do
  let st ← (List.range g.nodes).foldlM (fun st n =>
    if st.tags n = .unvisited then dfs g g.nodes n st else some st) DfsAlgo.init
  pure (st.sccs, (List.range g.nodes).filter fun n => st.tags n = .single)

section Invariant

variable (g : TaskGraph)

/-- `u` has been put into a component or among the single nodes. -/
def Done (st : DfsAlgo) (u : Nat) : Prop := st.tags u = .single ∨ st.tags u = .scc

/-- No root separates positions `p` and `q`: they lie in one block. -/
def SameBlock (roots : List Nat) (p q : Nat) : Prop := ∀ r ∈ roots, r ≤ p ↔ r ≤ q

/-- The components found so far are strongly connected components of the graph, disjoint, and
the nodes tagged single are components of one node without a loop. -/
structure Components (st : DfsAlgo) : Prop where
  sccs : ∀ c ∈ st.sccs, c.Nodup ∧ ∃ u ∈ c, (∀ w, w ∈ c ↔ g.Reaches u w ∧ g.Reaches w u) ∧
    (2 ≤ c.length ∨ (u, u) ∈ g.edges)
  disjoint : st.sccs.Pairwise List.Disjoint
  sccTag : ∀ u, st.tags u = .scc ↔ ∃ c ∈ st.sccs, u ∈ c
  single : ∀ u, st.tags u = .single →
    (∀ w, g.Reaches u w → g.Reaches w u → w = u) ∧ (u, u) ∉ g.edges

/-- What holds of the state while the nodes `act` are active, their calls of `dfs` under way,
the last one innermost. -/
structure Inv (act : List Nat) (st : DfsAlgo) extends Components g st : Prop where
  tags : ∀ u p, st.tags u = .onPath p ↔ 0 < p ∧ st.path[p - 1]? = some u
  covered : ∀ u p, st.tags u = .onPath p → ∃ r ∈ st.roots, r ≤ p
  sorted : st.roots.Pairwise (· > ·)
  roots : ∀ r ∈ st.roots, ∃ a ∈ act, st.tags a = .onPath r
  active : ∀ a ∈ act, ∃ p, st.tags a = .onPath p
  actSorted : act.Pairwise fun a b => ∀ p q, st.tags a = .onPath p → st.tags b = .onPath q → p < q
  chain : act.Chain' fun a b => (a, b) ∈ g.edges
  blocks : ∀ u w p q, st.tags u = .onPath p → st.tags w = .onPath q → SameBlock st.roots p q →
    g.Reaches u w
  finished : ∀ x p, st.tags x = .onPath p → x ∉ act → ∀ w, (x, w) ∈ g.edges →
    Done st w ∨ ∃ q, st.tags w = .onPath q ∧ SameBlock st.roots p q
  doneClosed : ∀ u, Done st u → ∀ w, (u, w) ∈ g.edges → Done st w

end Invariant

/-- On roots sorted with the top first, the loop popping the roots above a position `q` stops at
the first root at most `q`: what remains are the roots at most `q`. -/
theorem popRoots_onPath {q : Nat} : ∀ {l : List Nat}, l.Pairwise (· > ·) → (∃ r ∈ l, r ≤ q) →
    ∃ rs, popRoots (.onPath q) l = some rs ∧ rs <:+ l ∧ ∀ r, r ∈ rs ↔ r ∈ l ∧ r ≤ q
  | [], _, ⟨_, h, _⟩ => absurd h (List.not_mem_nil _)
  | a :: l, hs, ⟨r, hr, hrq⟩ => by
    rw [List.pairwise_cons] at hs
    by_cases ha : q < a
    · have hr' : r ∈ l := (List.mem_cons.1 hr).resolve_left fun h => by omega
      obtain ⟨rs, h, hsuf, hmem⟩ := popRoots_onPath hs.2 ⟨r, hr', hrq⟩
      refine ⟨rs, by simp [popRoots, Tag.lt, ha, h], hsuf.trans (List.suffix_cons _ _), ?_⟩
      intro x
      rw [hmem, List.mem_cons]
      constructor
      · exact fun h => ⟨.inr h.1, h.2⟩
      · rintro ⟨rfl | h, hx⟩
        · omega
        · exact ⟨h, hx⟩
    · refine ⟨a :: l, by simp [popRoots, Tag.lt, ha], List.suffix_refl _, fun x => ?_⟩
      refine ⟨fun h => ⟨h, ?_⟩, And.left⟩
      rcases List.mem_cons.1 h with rfl | h
      · omega
      · have := hs.1 x h; omega

/-- A tag that is not a position pops nothing. -/
theorem popRoots_of_not_lt {t : Tag} {r : Nat} {l : List Nat} (h : t.lt r = false) :
    popRoots t (r :: l) = some (r :: l) := by
  simp [popRoots, h]

theorem getElem?_append_singleton {l : List Nat} {a : Nat} {i : Nat} :
    (l ++ [a])[i]? = if i < l.length then l[i]? else if i = l.length then some a else none := by
  split_ifs with h1 h2
  · exact List.getElem?_append_left h1
  · subst h2; simp
  · rw [List.getElem?_eq_none]; simp; omega

section Basic

variable {g : TaskGraph} {act : List Nat} {st : DfsAlgo}

theorem Inv.pos (hi : Inv g act st) {u p : Nat} (h : st.tags u = .onPath p) :
    0 < p ∧ p ≤ st.path.length := by
  obtain ⟨hp, hu⟩ := (hi.tags u p).1 h
  exact ⟨hp, by have := (List.getElem?_eq_some_iff.1 hu).1; omega⟩

theorem Inv.unique (hi : Inv g act st) {u w p : Nat} (hu : st.tags u = .onPath p)
    (hw : st.tags w = .onPath p) : u = w := by
  have h1 := ((hi.tags u p).1 hu).2
  rw [((hi.tags w p).1 hw).2] at h1
  exact (Option.some.inj h1).symm

theorem not_done_of_unvisited {u : Nat} (h : st.tags u = .unvisited) : ¬ Done st u := by
  simp [Done, h]

theorem SameBlock.mono {roots roots' : List Nat} (hs : ∀ r ∈ roots', r ∈ roots) {p q : Nat}
    (h : SameBlock roots p q) : SameBlock roots' p q :=
  fun r hr => h r (hs r hr)

theorem SameBlock.symm {roots : List Nat} {p q : Nat} (h : SameBlock roots p q) :
    SameBlock roots q p :=
  fun r hr => (h r hr).symm

theorem SameBlock.trans {roots : List Nat} {p q s : Nat} (h : SameBlock roots p q)
    (h' : SameBlock roots q s) : SameBlock roots p s :=
  fun r hr => (h r hr).trans (h' r hr)

theorem sameBlock_of_le {roots : List Nat} {p q : Nat} (h : ∀ r ∈ roots, r ≤ p ∧ r ≤ q) :
    SameBlock roots p q :=
  fun r hr => ⟨fun _ => (h r hr).2, fun _ => (h r hr).1⟩

/-- The nodes from position `k + 1` on. -/
theorem Inv.mem_drop_iff (hi : Inv g act st) {u k : Nat} :
    u ∈ st.path.drop k ↔ ∃ p, st.tags u = .onPath p ∧ k < p := by
  rw [List.mem_iff_getElem?]
  constructor
  · rintro ⟨i, h⟩
    rw [List.getElem?_drop] at h
    exact ⟨k + i + 1, (hi.tags u _).2 ⟨by omega, by simpa using h⟩, by omega⟩
  · rintro ⟨p, hp, hkp⟩
    refine ⟨p - 1 - k, ?_⟩
    rw [List.getElem?_drop, show k + (p - 1 - k) = p - 1 by omega]
    exact ((hi.tags u p).1 hp).2

theorem Inv.nodup (hi : Inv g act st) : st.path.Nodup := by
  refine List.nodup_iff_getElem?_ne_getElem?.2 fun i j hij hj h => ?_
  have hi' : st.path[i]? = some st.path[j] := by rw [h, List.getElem?_eq_getElem hj]
  have h1 := (hi.tags _ (i + 1)).2 ⟨by omega, by simpa using hi'⟩
  have h2 := (hi.tags st.path[j] (j + 1)).2 ⟨by omega, by simp [List.getElem?_eq_getElem hj]⟩
  rw [h1, Tag.onPath.injEq] at h2
  omega

/-- The active nodes lie on the path in the order of their calls, each reached from the ones
before it by the edges of the calls. -/
theorem Inv.reaches_of_active (hi : Inv g act st) {a b p q : Nat} (ha : a ∈ act) (hb : b ∈ act)
    (hpa : st.tags a = .onPath p) (hqb : st.tags b = .onPath q) (hpq : p ≤ q) :
    g.Reaches a b := by
  by_cases hab : a = b
  · exact hab ▸ .refl
  have hreach : act.Pairwise (Relation.ReflTransGen fun a b => (a, b) ∈ g.edges) :=
    List.chain'_iff_pairwise.1 (hi.chain.imp fun _ _ h => .single h)
  rcases ((hreach.and hi.actSorted).imp Or.inl).forall (fun _ _ => Or.symm) ha hb hab with h | h
  · exact h.1
  · exact absurd (h.2 q p hqb hpa) (by omega)

/-- The innermost active node `v` has the highest position of all active nodes. -/
theorem Inv.pos_lt_last {v : Nat} (hi : Inv g (act ++ [v]) st) {a p pv : Nat} (ha : a ∈ act)
    (hpa : st.tags a = .onPath p) (hv : st.tags v = .onPath pv) : p < pv :=
  (List.pairwise_append.1 hi.actSorted).2.2 a ha v (List.mem_singleton_self _) p pv hpa hv

theorem Inv.root_le_last {v : Nat} (hi : Inv g (act ++ [v]) st) {pv : Nat}
    (hv : st.tags v = .onPath pv) {r : Nat} (hr : r ∈ st.roots) : r ≤ pv := by
  obtain ⟨a, ha, hat⟩ := hi.roots r hr
  rcases List.mem_append.1 ha with ha | ha
  · exact (hi.pos_lt_last ha hat hv).le
  · obtain rfl := List.mem_singleton.1 ha
    rw [hv, Tag.onPath.injEq] at hat
    omega

/-- The block of a node on the path begins at the highest root below it, the position of an
active node with which it is strongly connected. -/
theorem Inv.blockRoot (hi : Inv g act st) {x p : Nat} (hx : st.tags x = .onPath p) :
    ∃ r ∈ st.roots, r ≤ p ∧ (∀ r' ∈ st.roots, r' ≤ p → r' ≤ r) ∧
      ∃ a ∈ act, st.tags a = .onPath r ∧ g.Reaches a x ∧ g.Reaches x a := by
  obtain ⟨r0, hr0, hr0p⟩ := hi.covered x p hx
  obtain ⟨rs, -, hsuf, hmem⟩ := popRoots_onPath hi.sorted ⟨r0, hr0, hr0p⟩
  obtain ⟨r, rs', rfl⟩ : ∃ r rs', rs = r :: rs' := by
    cases rs with
    | nil => exact absurd ((hmem r0).2 ⟨hr0, hr0p⟩) (List.not_mem_nil _)
    | cons r rs' => exact ⟨r, rs', rfl⟩
  obtain ⟨hr, hrp⟩ := (hmem r).1 (List.mem_cons_self _ _)
  have hmax : ∀ r' ∈ st.roots, r' ≤ p → r' ≤ r := fun r' h h' => by
    rcases List.mem_cons.1 ((hmem r').2 ⟨h, h'⟩) with rfl | h''
    · exact le_rfl
    · exact le_of_lt ((List.pairwise_cons.1 (hi.sorted.sublist hsuf.sublist)).1 r' h'')
  obtain ⟨a, ha, hat⟩ := hi.roots r hr
  have hsame : SameBlock st.roots r p := fun r' h' => ⟨fun h => h.trans hrp, hmax r' h'⟩
  exact ⟨r, hr, hrp, hmax, a, ha, hat, hi.blocks a x r p hat hx hsame,
    hi.blocks x a p r hx hat hsame.symm⟩

end Basic

section Push

variable {g : TaskGraph} {act : List Nat} {st : DfsAlgo} {v : Nat}

@[simp] theorem push_tags_self : (push st v).tags v = .onPath (st.path.length + 1) := by
  simp [push]

theorem push_tags_of_ne {u : Nat} (h : u ≠ v) : (push st v).tags u = st.tags u := by
  simp [push, Function.update_noteq h]

@[simp] theorem push_path : (push st v).path = st.path ++ [v] := rfl

@[simp] theorem push_roots : (push st v).roots = (st.path.length + 1) :: st.roots := rfl

@[simp] theorem push_sccs : (push st v).sccs = st.sccs := rfl

/-- Entering an unvisited node finishes nothing. -/
theorem push_tags_eq_iff (hv : st.tags v = .unvisited) {u : Nat} {t : Tag}
    (ht : t = .single ∨ t = .scc) : (push st v).tags u = t ↔ st.tags u = t := by
  by_cases huv : u = v
  · subst huv; rcases ht with rfl | rfl <;> simp [hv]
  · rw [push_tags_of_ne huv]

theorem push_done_iff (hv : st.tags v = .unvisited) {u : Nat} : Done (push st v) u ↔ Done st u := by
  simp only [Done, push_tags_eq_iff hv (.inl rfl), push_tags_eq_iff hv (.inr rfl)]

theorem Inv.push_unvisited (hi : Inv g act st) (hv : st.tags v = .unvisited)
    (hedge : ∀ u ∈ act.getLast?, (u, v) ∈ g.edges) : Inv g (act ++ [v]) (push st v) := by
  have hne : ∀ {u p}, st.tags u = .onPath p → u ≠ v := fun h hu => by rw [hu, hv] at h; cases h
  have hle : ∀ {u p}, st.tags u = .onPath p → p ≤ st.path.length := fun h => (hi.pos h).2
  /- A node already on the path keeps its tag; the new node's position exceeds all others. -/
  have htag : ∀ {u p}, (push st v).tags u = .onPath p →
      (u = v ∧ p = st.path.length + 1) ∨ (u ≠ v ∧ st.tags u = .onPath p) := by
    intro u p h
    by_cases huv : u = v
    · subst huv; simp at h; exact .inl ⟨rfl, h.symm⟩
    · rw [push_tags_of_ne huv] at h; exact .inr ⟨huv, h⟩
  constructor
  case tags =>
    intro u p
    by_cases huv : u = v
    · subst huv
      rw [push_tags_self, Tag.onPath.injEq, push_path, getElem?_append_singleton]
      constructor
      · rintro rfl; simp
      · rintro ⟨hp, h⟩
        split_ifs at h with h1 h2
        · exact absurd ((hi.tags u p).2 ⟨hp, h⟩) (by rw [hv]; simp)
        · omega
    · rw [push_tags_of_ne huv, hi.tags u p, push_path, getElem?_append_singleton]
      constructor
      · rintro ⟨hp, h⟩
        have := (List.getElem?_eq_some_iff.1 h).1
        exact ⟨hp, by rw [if_pos this]; exact h⟩
      · rintro ⟨hp, h⟩
        split_ifs at h with h1 h2
        · exact ⟨hp, h⟩
        · exact absurd (Option.some.inj h).symm huv
  case covered =>
    intro u p h
    rcases htag h with ⟨-, rfl⟩ | ⟨-, h⟩
    · exact ⟨_, List.mem_cons_self _ _, le_rfl⟩
    · obtain ⟨r, hr, hrp⟩ := hi.covered u p h
      exact ⟨r, List.mem_cons_of_mem _ hr, hrp⟩
  case sorted =>
    refine List.pairwise_cons.2 ⟨fun r hr => ?_, hi.sorted⟩
    obtain ⟨a, -, ha⟩ := hi.roots r hr
    exact Nat.lt_succ_of_le (hle ha)
  case roots =>
    intro r hr
    rcases List.mem_cons.1 hr with rfl | hr
    · exact ⟨v, List.mem_append_right _ (List.mem_singleton_self _), push_tags_self⟩
    · obtain ⟨a, ha, hat⟩ := hi.roots r hr
      exact ⟨a, List.mem_append_left _ ha, by rw [push_tags_of_ne (hne hat)]; exact hat⟩
  case active =>
    intro a ha
    rcases List.mem_append.1 ha with ha | ha
    · obtain ⟨p, hp⟩ := hi.active a ha
      exact ⟨p, by rw [push_tags_of_ne (hne hp)]; exact hp⟩
    · rw [List.mem_singleton.1 ha]; exact ⟨_, push_tags_self⟩
  case actSorted =>
    refine List.pairwise_append.2 ⟨?_, List.pairwise_singleton _ _, ?_⟩
    · refine hi.actSorted.imp_of_mem fun {a b} ha hb h p q hpa hqb => h p q ?_ ?_
      · obtain ⟨p', hp'⟩ := hi.active a ha
        rwa [push_tags_of_ne (hne hp')] at hpa
      · obtain ⟨q', hq'⟩ := hi.active b hb
        rwa [push_tags_of_ne (hne hq')] at hqb
    · intro a ha b hb p q hpa hqb
      rw [List.mem_singleton.1 hb, push_tags_self, Tag.onPath.injEq] at hqb
      obtain ⟨p', hp'⟩ := hi.active a ha
      rw [push_tags_of_ne (hne hp'), hp', Tag.onPath.injEq] at hpa
      subst hpa hqb
      exact Nat.lt_succ_of_le (hle hp')
  case chain =>
    exact List.Chain'.append hi.chain (List.chain'_singleton _) fun x hx y hy => by
      rw [List.head?_cons, Option.mem_some_iff] at hy
      exact hy ▸ hedge x hx
  case blocks =>
    intro u w p q hu hw hb
    rcases htag hu with ⟨rfl, rfl⟩ | ⟨-, hu0⟩ <;> rcases htag hw with ⟨rfl, rfl⟩ | ⟨-, hw0⟩
    · exact Relation.ReflTransGen.refl
    · exact absurd ((hb _ (List.mem_cons_self _ _)).1 le_rfl) (by have := hle hw0; omega)
    · exact absurd ((hb _ (List.mem_cons_self _ _)).2 le_rfl) (by have := hle hu0; omega)
    · exact hi.blocks u w p q hu0 hw0 (hb.mono fun r hr => List.mem_cons_of_mem _ hr)
  case finished =>
    intro x p hx hxa w hxw
    have hxv : x ≠ v := fun h => hxa (h ▸ List.mem_append_right _ (List.mem_singleton_self _))
    rw [push_tags_of_ne hxv] at hx
    rcases hi.finished x p hx (fun h => hxa (List.mem_append_left _ h)) w hxw with
      hd | ⟨q, hq, hb⟩
    · exact .inl ((push_done_iff hv).2 hd)
    · refine .inr ⟨q, by rw [push_tags_of_ne (hne hq)]; exact hq, fun r hr => ?_⟩
      rcases List.mem_cons.1 hr with rfl | hr
      · have := hle hx; have := hle hq; omega
      · exact hb r hr
  case doneClosed =>
    exact fun u hu w huw => (push_done_iff hv).2 (hi.doneClosed u ((push_done_iff hv).1 hu) w huw)
  case toComponents =>
    exact ⟨hi.sccs, hi.disjoint, fun u => (push_tags_eq_iff hv (.inr rfl)).trans (hi.sccTag u),
      fun u hu => hi.single u ((push_tags_eq_iff hv (.inl rfl)).1 hu)⟩

end Push

section Merge

variable {g : TaskGraph} {act : List Nat} {st : DfsAlgo} {v w pv q : Nat}

/-- An edge from the innermost active node `v` back to a node `w` on the path merges the blocks
above `w`'s block into it: every node from there on reaches `v`, and `v` reaches `w` and from its
block every node from there on. -/
theorem Inv.merge (hi : Inv g (act ++ [v]) st) (hv : st.tags v = .onPath pv)
    (hvw : (v, w) ∈ g.edges) (hw : st.tags w = .onPath q) :
    ∃ rs, popRoots (.onPath q) st.roots = some rs ∧ rs <:+ st.roots ∧ (∀ r ∈ rs, r ≤ q) ∧
      Inv g (act ++ [v]) { st with roots := rs } := by
  obtain ⟨rs, hpop, hsuf, hmem⟩ := popRoots_onPath hi.sorted (hi.covered w q hw)
  refine ⟨rs, hpop, hsuf, fun r hr => ((hmem r).1 hr).2, ?_⟩
  have hsub : ∀ r ∈ rs, r ∈ st.roots := fun r hr => ((hmem r).1 hr).1
  have hva : v ∈ act ++ [v] := List.mem_append_right _ (List.mem_singleton_self _)
  constructor
  case covered =>
    intro u p hu
    obtain ⟨r, hr, hrp⟩ := hi.covered u p hu
    by_cases hrq : r ≤ q
    · exact ⟨r, (hmem r).2 ⟨hr, hrq⟩, hrp⟩
    · obtain ⟨r', hr', hr'q⟩ := hi.covered w q hw
      exact ⟨r', (hmem r').2 ⟨hr', hr'q⟩, by omega⟩
  case sorted => exact hi.sorted.sublist hsuf.sublist
  case roots => exact fun r hr => hi.roots r (hsub r hr)
  case blocks =>
    intro x y p1 p2 hx hy hb
    by_cases hold : SameBlock st.roots p1 p2
    · exact hi.blocks x y p1 p2 hx hy hold
    obtain ⟨h, hh, hhq, -, aw, haw, hawt, -, hwaw⟩ := hi.blockRoot hw
    /- A popped root, above `q`, separates `p1` and `p2`, so both lie at or above `h`. -/
    have hh2 : h ≤ p2 := by
      simp only [SameBlock, not_forall] at hold
      obtain ⟨r, hr, hne⟩ := hold
      have hrq : q < r := by
        by_contra hrq
        exact hne (hb r ((hmem r).2 ⟨hr, by omega⟩))
      have := hb h ((hmem h).2 ⟨hh, hhq⟩)
      omega
    obtain ⟨r1, hr1, -, -, a1, ha1, ha1t, -, hxa1⟩ := hi.blockRoot hx
    obtain ⟨r2, -, -, hmax2, a2, ha2, ha2t, ha2y, -⟩ := hi.blockRoot hy
    have hxv : g.Reaches x v :=
      hxa1.trans (hi.reaches_of_active ha1 hva ha1t hv (hi.root_le_last hv hr1))
    have hvy : g.Reaches v y :=
      .head hvw (hwaw.trans ((hi.reaches_of_active haw ha2 hawt ha2t (hmax2 h hh hh2)).trans ha2y))
    exact hxv.trans hvy
  case finished =>
    intro x p hx hxa y hxy
    rcases hi.finished x p hx hxa y hxy with hd | ⟨q', hq', hb⟩
    · exact .inl hd
    · exact .inr ⟨q', hq', hb.mono hsub⟩
  case tags => exact hi.tags
  case active => exact hi.active
  case actSorted => exact hi.actSorted
  case chain => exact hi.chain
  case doneClosed => exact hi.doneClosed
  case toComponents => exact ⟨hi.sccs, hi.disjoint, hi.sccTag, hi.single⟩

end Merge

section Finish

variable {g : TaskGraph} {act : List Nat} {st : DfsAlgo} {v pv : Nat}

theorem Done.ne_onPath {u p : Nat} (h : Done st u) : st.tags u ≠ .onPath p := by
  rcases h with h | h <;> rw [h] <;> simp

theorem Inv.done_of_reaches (hi : Inv g act st) {u w : Nat} (hu : Done st u)
    (h : g.Reaches u w) : Done st w := by
  induction h with
  | refl => exact hu
  | tail _ hxw ih => exact hi.doneClosed _ ih _ hxw

/-- `u` lies in the top block, from position `r` on. -/
def InTop (st : DfsAlgo) (r u : Nat) : Prop := ∃ q, st.tags u = .onPath q ∧ r ≤ q

/-- What the loop of `dfs(v)` establishes for each out-edge of `v`. -/
def EdgesDone (g : TaskGraph) (st : DfsAlgo) (v pv : Nat) : Prop :=
  ∀ w, (v, w) ∈ g.edges → Done st w ∨ ∃ q, st.tags w = .onPath q ∧ SameBlock st.roots pv q

section Top

variable (hi : Inv g (act ++ [v]) st) (hv : st.tags v = .onPath pv) (hpv : pv ∈ st.roots)
  (hloc : EdgesDone g st v pv)
include hi hv hpv hloc

/-- When `v` is the top root, its block is closed under successors up to finished nodes. -/
theorem Inv.top_step {u w : Nat} (hu : InTop st pv u) (huw : (u, w) ∈ g.edges) :
    Done st w ∨ InTop st pv w := by
  obtain ⟨p, hu, hpvp⟩ := hu
  by_cases hua : u ∈ act ++ [v]
  · rcases List.mem_append.1 hua with hua | hua
    · exact absurd (hi.pos_lt_last hua hu hv) (by omega)
    · rw [List.mem_singleton.1 hua] at huw
      exact (hloc w huw).imp_right fun ⟨q, hq, hb⟩ => ⟨q, hq, (hb pv hpv).1 le_rfl⟩
  · exact (hi.finished u p hu hua w huw).imp_right fun ⟨q, hq, hb⟩ => ⟨q, hq, (hb pv hpv).1 hpvp⟩

theorem Inv.reach_top {w : Nat} (h : g.Reaches v w) : Done st w ∨ InTop st pv w := by
  induction h with
  | refl => exact .inr ⟨pv, hv, le_rfl⟩
  | tail _ hxw ih =>
    rcases ih with ih | ih
    · exact .inl (hi.doneClosed _ ih _ hxw)
    · exact hi.top_step hv hpv hloc ih hxw

/-- The top block is the strongly connected component of `v`. -/
theorem Inv.inTop_iff {w : Nat} : InTop st pv w ↔ g.Reaches v w ∧ g.Reaches w v := by
  constructor
  · rintro ⟨q, hq, hpvq⟩
    have hb : SameBlock st.roots pv q := sameBlock_of_le fun r hr =>
      ⟨hi.root_le_last hv hr, (hi.root_le_last hv hr).trans hpvq⟩
    exact ⟨hi.blocks v w pv q hv hq hb, hi.blocks w v q pv hq hv hb.symm⟩
  · rintro ⟨hvw, hwv⟩
    refine (hi.reach_top hv hpv hloc hvw).resolve_left fun hd => ?_
    exact Done.ne_onPath (hi.done_of_reaches hd hwv) hv

end Top

/-- What `finish` keeps of the state: the nodes on the path below `pv`, the finished nodes, and
the roots below `pv`. -/
structure FinishFrame (pv : Nat) (st st' : DfsAlgo) : Prop where
  onPath : ∀ u p, st.tags u = .onPath p → p < pv → st'.tags u = .onPath p
  done : ∀ u, Done st u → Done st' u
  roots : st'.roots <:+ st.roots
  notRoot : pv ∉ st'.roots

/-- Popping the top block of `v`, at `pv`: the path is cut below `pv` and the block finished,
with the components given by the caller. -/
theorem Inv.close {rs : List Nat} (hi : Inv g (act ++ [v]) st) (hv : st.tags v = .onPath pv)
    (hroots : st.roots = pv :: rs) (hloc : EdgesDone g st v pv) (st' : DfsAlgo)
    (hpath : st'.path = st.path.take (pv - 1)) (hroots' : st'.roots = rs)
    (hin : ∀ u, InTop st pv u → Done st' u) (hout : ∀ u, ¬ InTop st pv u → st'.tags u = st.tags u)
    (hcomp : Components g st') :
    Inv g act st' ∧ FinishFrame pv st st' ∧ Done st' v := by
  have hsorted := hroots ▸ hi.sorted
  have hrs : ∀ r ∈ rs, r < pv := fun r hr => (List.pairwise_cons.1 hsorted).1 r hr
  have hkeep : ∀ {u p}, st.tags u = .onPath p → p < pv → st'.tags u = .onPath p :=
    fun {u p} h hp => by
      rw [hout u fun ⟨q, hq, hpvq⟩ => by rw [h, Tag.onPath.injEq] at hq; omega]; exact h
  have hback : ∀ {u p}, st'.tags u = .onPath p → st.tags u = .onPath p ∧ p < pv :=
    fun {u p} h => by
      have hu : ¬ InTop st pv u := fun hu => Done.ne_onPath (hin u hu) h
      rw [hout u hu] at h
      exact ⟨h, by by_contra hp; exact hu ⟨p, h, by omega⟩⟩
  have hdone : ∀ {u}, Done st u → Done st' u := fun {u} h => by
    rwa [Done, hout u fun ⟨q, hq, _⟩ => Done.ne_onPath h hq]
  have hvp : pv ∈ st.roots := hroots ▸ List.mem_cons_self _ _
  have hmem : ∀ r ∈ rs, r ∈ st.roots := fun r hr => hroots ▸ List.mem_cons_of_mem _ hr
  refine ⟨?_, ⟨fun u p h hp => hkeep h hp, fun u h => hdone h, hroots' ▸ hroots ▸
    List.suffix_cons _ _, fun h => by have := hrs pv (hroots' ▸ h); omega⟩,
    hin v ⟨pv, hv, le_rfl⟩⟩
  constructor
  case tags =>
    intro u p
    by_cases hu : InTop st pv u
    · refine ⟨fun h => absurd h (Done.ne_onPath (hin u hu)), fun ⟨hp, h⟩ => ?_⟩
      rw [hpath, List.getElem?_take] at h
      split_ifs at h with hlt
      obtain ⟨q, hq, hpvq⟩ := hu
      have := (hi.tags u p).2 ⟨hp, h⟩
      rw [hq, Tag.onPath.injEq] at this
      omega
    · rw [hout u hu, hi.tags u p, hpath, List.getElem?_take]
      constructor
      · rintro ⟨hp, h⟩
        refine ⟨hp, by rwa [if_pos (by_contra fun hlt => hu ⟨p, (hi.tags u p).2 ⟨hp, h⟩, by omega⟩)]⟩
      · rintro ⟨hp, h⟩
        split_ifs at h
        exact ⟨hp, h⟩
  case covered =>
    intro u p hu
    obtain ⟨hu, hp⟩ := hback hu
    obtain ⟨r, hr, hrp⟩ := hi.covered u p hu
    rw [hroots, List.mem_cons] at hr
    rcases hr with rfl | hr
    · omega
    · exact ⟨r, hroots' ▸ hr, hrp⟩
  case sorted => exact hroots' ▸ (List.pairwise_cons.1 hsorted).2
  case roots =>
    intro r hr
    rw [hroots'] at hr
    obtain ⟨a, ha, hat⟩ := hi.roots r (hmem r hr)
    have hav : a ≠ v := fun h => by rw [h, hv, Tag.onPath.injEq] at hat; have := hrs r hr; omega
    exact ⟨a, (List.mem_append.1 ha).resolve_right fun h => hav (List.mem_singleton.1 h),
      hkeep hat (hrs r hr)⟩
  case active =>
    intro a ha
    obtain ⟨p, hp⟩ := hi.active a (List.mem_append_left _ ha)
    exact ⟨p, hkeep hp (hi.pos_lt_last ha hp hv)⟩
  case actSorted =>
    exact (List.pairwise_append.1 hi.actSorted).1.imp fun h p q hpa hqb =>
      h p q (hback hpa).1 (hback hqb).1
  case chain => exact (List.chain'_append.1 hi.chain).1
  case blocks =>
    intro u w p q hu hw hb
    obtain ⟨hu, hp⟩ := hback hu
    obtain ⟨hw, hq⟩ := hback hw
    refine hi.blocks u w p q hu hw fun r hr => ?_
    rw [hroots, List.mem_cons] at hr
    rcases hr with rfl | hr
    · exact iff_of_false (by omega) (by omega)
    · exact hb r (hroots' ▸ hr)
  case finished =>
    intro x p hx hxa y hxy
    obtain ⟨hx, hp⟩ := hback hx
    have hxv : x ∉ act ++ [v] := fun h => by
      rcases List.mem_append.1 h with h | h
      · exact hxa h
      · rw [List.mem_singleton.1 h, hv, Tag.onPath.injEq] at hx; omega
    rcases hi.finished x p hx hxv y hxy with hd | ⟨q, hq, hb⟩
    · exact .inl (hdone hd)
    · have hqp : q < pv := by have := hb pv hvp; omega
      exact .inr ⟨q, hkeep hq hqp, fun r hr => hb r (hmem r (hroots' ▸ hr))⟩
  case doneClosed =>
    intro u hu w huw
    by_cases hut : InTop st pv u
    · rcases hi.top_step hv hvp hloc hut huw with hw | hw
      · exact hdone hw
      · exact hin w hw
    · rw [Done, hout u hut] at hu
      exact hdone (hi.doneClosed u hu w huw)
  case toComponents => exact hcomp

/-- A node that is not the top root stays on the path, in the block below it. -/
theorem Inv.pop_active (hi : Inv g (act ++ [v]) st) (hv : st.tags v = .onPath pv)
    (hnot : pv ∉ st.roots) (hloc : EdgesDone g st v pv) : Inv g act st :=
  { hi with
    roots := fun r hr => show ∃ a ∈ act, st.tags a = .onPath r by
      obtain ⟨a, ha, hat⟩ := hi.roots r hr
      refine ⟨a, (List.mem_append.1 ha).resolve_right fun h => hnot ?_, hat⟩
      rw [List.mem_singleton.1 h, hv, Tag.onPath.injEq] at hat
      exact hat ▸ hr
    active := fun a ha => hi.active a (List.mem_append_left _ ha)
    actSorted := (List.pairwise_append.1 hi.actSorted).1
    chain := (List.chain'_append.1 hi.chain).1
    finished := fun x p hx hxa w hxw => by
      by_cases hxv : x = v
      · subst hxv
        obtain rfl : p = pv := by rw [hv, Tag.onPath.injEq] at hx; exact hx.symm
        exact hloc w hxw
      · exact hi.finished x p hx (by simpa [hxv] using hxa) w hxw }

/-- A top block at the end of the path is its root alone. -/
theorem Inv.eq_of_inTop_last (hi : Inv g act st) (hv : st.tags v = .onPath pv)
    (hlen : pv = st.path.length) {u : Nat} (hu : InTop st pv u) : u = v := by
  obtain ⟨q, hq, hpq⟩ := hu
  have := (hi.pos hq).2
  exact hi.unique (show st.tags u = .onPath pv by rw [hq]; congr 1; omega) hv

theorem Inv.mem_drop_iff_inTop (hi : Inv g act st) (hpv : 0 < pv) {u : Nat} :
    u ∈ st.path.drop (pv - 1) ↔ InTop st pv u :=
  hi.mem_drop_iff.trans (exists_congr fun _ => and_congr_right fun _ => by omega)

section Close

variable {rs : List Nat} (hi : Inv g (act ++ [v]) st) (hv : st.tags v = .onPath pv)
  (hvp : pv ∈ st.roots) (hloc : EdgesDone g st v pv)
include hi hv hvp hloc

/-- A root `v` alone in its block and without a self-edge is a single node. -/
theorem Inv.components_single (hlen : pv = st.path.length) (hloop : (v, v) ∉ g.edges) :
    Components g { st with
      roots := rs
      tags := Function.update st.tags v .single
      path := st.path.dropLast } := by
  refine ⟨hi.sccs, hi.disjoint, fun u => ?_, fun u hu => ?_⟩
  · by_cases huv : u = v
    · subst huv
      simp only [Function.update_same, reduceCtorEq, false_iff, not_exists, not_and]
      exact fun c hc hu => Done.ne_onPath (.inr ((hi.sccTag u).2 ⟨c, hc, hu⟩)) hv
    · simp only [Function.update_noteq huv, hi.sccTag u]
  · by_cases huv : u = v
    · subst huv
      exact ⟨fun w h1 h2 => hi.eq_of_inTop_last hv hlen ((hi.inTop_iff hv hvp hloc).2 ⟨h1, h2⟩),
        hloop⟩
    · exact hi.single u (by simpa [Function.update_noteq huv] using hu)

/-- The block of a root `v`, of two nodes or more or with a self-edge, is a component. -/
theorem Inv.components_scc (hbig : pv ≠ st.path.length ∨ (v, v) ∈ g.edges) :
    Components g {
      path := st.path.take (pv - 1)
      roots := rs
      sccs := st.sccs ++ [st.path.drop (pv - 1)]
      tags := fun u => if u ∈ st.path.drop (pv - 1) then .scc else st.tags u } := by
  obtain ⟨hpv0, hpvl⟩ := hi.pos hv
  have hmemc : ∀ u, u ∈ st.path.drop (pv - 1) ↔ InTop st pv u := fun u => hi.mem_drop_iff_inTop hpv0
  refine ⟨fun c hc => ?_, ?_, fun u => ?_, fun u hu => ?_⟩
  · rcases List.mem_append.1 hc with hc | hc
    · exact hi.sccs c hc
    rw [List.mem_singleton.1 hc]
    refine ⟨hi.nodup.sublist (List.drop_sublist _ _), v, (hmemc v).2 ⟨pv, hv, le_rfl⟩,
      fun w => (hmemc w).trans (hi.inTop_iff hv hvp hloc), hbig.imp_left fun hl => ?_⟩
    simp only [List.length_drop]
    omega
  · refine List.pairwise_append.2 ⟨hi.disjoint, List.pairwise_singleton _ _, ?_⟩
    intro c hc c' hc' u hu hu'
    rw [List.mem_singleton.1 hc'] at hu'
    obtain ⟨q, hq, -⟩ := (hmemc u).1 hu'
    exact Done.ne_onPath (.inr ((hi.sccTag u).2 ⟨c, hc, hu⟩)) hq
  · by_cases hu : u ∈ st.path.drop (pv - 1)
    · simp only [if_pos hu, true_iff]
      exact ⟨_, List.mem_append_right _ (List.mem_singleton_self _), hu⟩
    · simp [if_neg hu, hi.sccTag u, or_and_right, exists_or, hu]
  · by_cases hu' : u ∈ st.path.drop (pv - 1)
    · simp [if_pos hu'] at hu
    · exact hi.single u (by simpa [if_neg hu'] using hu)

end Close

/-- `finish` closes the block of `v` when `v` is its root, as one component or as a single node,
and otherwise leaves `v` on the path; it never fails. -/
theorem Inv.finish_spec {cycles : Bool} (hi : Inv g (act ++ [v]) st)
    (hv : st.tags v = .onPath pv) (hloc : EdgesDone g st v pv)
    (hcyc : cycles = true ↔ (v, v) ∈ g.edges) :
    ∃ st', finish v cycles st = some st' ∧ Inv g act st' ∧ FinishFrame pv st st' ∧
      (Done st' v ∨ st'.tags v = .onPath pv) := by
  obtain ⟨r0, hr0, -⟩ := hi.covered v pv hv
  obtain ⟨hpv0, -⟩ := hi.pos hv
  cases hroots : st.roots with
  | nil => rw [hroots] at hr0; exact absurd hr0 (List.not_mem_nil _)
  | cons r rs =>
  by_cases hr : st.tags v = .onPath r
  case neg =>
    have hnot : pv ∉ st.roots := by
      have hrpv := hi.root_le_last hv (hroots ▸ List.mem_cons_self r rs)
      have hsorted := hroots ▸ hi.sorted
      rw [hroots, List.mem_cons]
      rintro (rfl | h)
      · exact hr hv
      · have := (List.pairwise_cons.1 hsorted).1 _ h; omega
    exact ⟨st, by simp [finish, hroots, hr], hi.pop_active hv hnot hloc,
      ⟨fun _ _ h _ => h, fun _ h => h, List.suffix_refl _, hnot⟩, .inr hv⟩
  obtain rfl : r = pv := by rw [hv, Tag.onPath.injEq] at hr; exact hr.symm
  have hvp : r ∈ st.roots := hroots ▸ List.mem_cons_self _ _
  by_cases hs : r = st.path.length ∧ cycles = false
  case pos =>
    have hcl := hi.close hv hroots hloc { st with
        roots := rs
        tags := Function.update st.tags v .single
        path := st.path.dropLast }
      (by simp only [List.dropLast_eq_take, ← hs.1]) rfl
      (fun u hu => by rw [hi.eq_of_inTop_last hv hs.1 hu]; exact .inl (Function.update_same _ _ _))
      (fun u hu => Function.update_noteq (fun h => hu (by rw [h]; exact ⟨r, hv, le_rfl⟩)) ..)
      (hi.components_single hv hvp hloc hs.1 fun h => absurd (hcyc.2 h) (by simp [hs.2]))
    exact ⟨_, by simp [finish, hroots, hr, hs], hcl.1, hcl.2.1, .inl hcl.2.2⟩
  case neg =>
    have hcl := hi.close hv hroots hloc {
        path := st.path.take (r - 1)
        roots := rs
        sccs := st.sccs ++ [st.path.drop (r - 1)]
        tags := fun u => if u ∈ st.path.drop (r - 1) then .scc else st.tags u }
      rfl rfl (fun u hu => .inr (if_pos ((hi.mem_drop_iff_inTop hpv0).2 hu)))
      (fun u hu => if_neg fun h => hu ((hi.mem_drop_iff_inTop hpv0).1 h))
      (hi.components_scc hv hvp hloc (by
        by_cases hl : r = st.path.length
        · exact .inr (hcyc.1 (by simpa [hl] using hs))
        · exact .inl hl))
    exact ⟨_, by simp [finish, hroots, hr, hs], hcl.1, hcl.2.1, .inl hcl.2.2⟩

end Finish

section Dfs

variable {g : TaskGraph} {act : List Nat} {st st' : DfsAlgo} {v : Nat}

theorem mem_outEdges {w : Nat} : w ∈ outEdges g v ↔ (v, w) ∈ g.edges := by
  simp [outEdges]

/-- How a call of `dfs` changes the state of its caller. -/
structure Grows (st st' : DfsAlgo) : Prop where
  onPath : ∀ u p, st.tags u = .onPath p → st'.tags u = .onPath p
  done : ∀ u, Done st u → Done st' u
  roots : st'.roots <:+ st.roots

theorem Grows.refl : Grows st st := ⟨fun _ _ h => h, fun _ h => h, List.suffix_refl _⟩

theorem Grows.trans {st'' : DfsAlgo} (h : Grows st st') (h' : Grows st' st'') : Grows st st'' :=
  ⟨fun u p hu => h'.onPath u p (h.onPath u p hu), fun u hu => h'.done u (h.done u hu),
    h'.roots.trans h.roots⟩

/-- A node once visited is never unvisited again. -/
theorem Grows.visited (h : Grows st st') {u : Nat} (hu : st.tags u ≠ .unvisited) :
    st'.tags u ≠ .unvisited := by
  cases ht : st.tags u with
  | unvisited => exact absurd ht hu
  | onPath p => rw [h.onPath u p ht]; simp
  | single => rcases h.done u (.inl ht) with h' | h' <;> simp [h']
  | scc => rcases h.done u (.inr ht) with h' | h' <;> simp [h']

/-- The number of nodes still to visit, which bounds the depth of the recursion. -/
def unvisitedCount (g : TaskGraph) (st : DfsAlgo) : Nat :=
  (List.range g.nodes).countP fun u => st.tags u = .unvisited

theorem Grows.unvisitedCount_le (h : Grows st st') : unvisitedCount g st' ≤ unvisitedCount g st :=
  List.countP_mono_left fun u _ hu => by
    by_contra h'
    exact h.visited (by simpa using h') (by simpa using hu)

theorem countP_lt_of_mem {α : Type} {p q : α → Bool} :
    ∀ {l : List α}, (∀ x ∈ l, q x → p x) → ∀ {a}, a ∈ l → p a → q a = false →
      l.countP q < l.countP p
  | b :: l, hle, a, ha, hpa, hqa => by
    have hle' : ∀ x ∈ l, q x → p x := fun x hx => hle x (List.mem_cons_of_mem _ hx)
    have hb := hle b (List.mem_cons_self _ _)
    simp only [List.countP_cons]
    rcases List.mem_cons.1 ha with rfl | ha
    · have := List.countP_mono_left hle'; simp [hpa, hqa]; omega
    · have := countP_lt_of_mem hle' ha hpa hqa
      by_cases hqb : q b
      · simp only [hqb, hb hqb, if_true]; omega
      · simp only [hqb, Bool.false_eq_true, if_false]; split <;> omega

theorem unvisitedCount_push (hv : st.tags v = .unvisited) (hvn : v < g.nodes) :
    unvisitedCount g (push st v) < unvisitedCount g st := by
  refine countP_lt_of_mem (fun u _ hu => ?_) (List.mem_range.2 hvn) (by simpa using hv) (by simp)
  by_cases huv : u = v
  · simp [huv, hv]
  · simpa [push_tags_of_ne huv] using hu

/-- What holds after the loop of `dfs(v)`, started from `st0`, has gone through the out-edges
`done`. -/
structure LoopInv (g : TaskGraph) (act : List Nat) (v : Nat) (st0 : DfsAlgo) (done : List Nat)
    (acc : DfsAlgo × Bool) : Prop where
  inv : Inv g (act ++ [v]) acc.1
  grows : Grows (push st0 v) acc.1
  edges : ∀ w ∈ done, Done acc.1 w ∨
    ∃ q, acc.1.tags w = .onPath q ∧ SameBlock acc.1.roots (st0.path.length + 1) q
  cycles : acc.2 = true ↔ v ∈ done

variable {st0 : DfsAlgo} {done : List Nat} {acc : DfsAlgo × Bool}

theorem LoopInv.init (hi : Inv g act st0) (hv : st0.tags v = .unvisited)
    (hedge : ∀ u ∈ act.getLast?, (u, v) ∈ g.edges) : LoopInv g act v st0 [] (push st0 v, false) :=
  ⟨hi.push_unvisited hv hedge, .refl, by simp, by simp⟩

theorem LoopInv.tags_self (hl : LoopInv g act v st0 done acc) :
    acc.1.tags v = .onPath (st0.path.length + 1) :=
  hl.grows.onPath v _ push_tags_self

/-- An edge to a finished node changes nothing but the flag. -/
theorem LoopInv.step_done {w : Nat} (hl : LoopInv g act v st0 done acc) (hd : Done acc.1 w)
    (dfs : Nat → DfsAlgo → Option DfsAlgo) :
    ∃ acc', visitEdge dfs v acc w = some acc' ∧ LoopInv g act v st0 (done ++ [w]) acc' := by
  obtain ⟨r, rs, hroots⟩ : ∃ r rs, acc.1.roots = r :: rs := by
    obtain ⟨r0, hr0, -⟩ := hl.inv.covered v _ hl.tags_self
    cases h : acc.1.roots with
    | nil => rw [h] at hr0; exact absurd hr0 (List.not_mem_nil _)
    | cons r rs => exact ⟨r, rs, rfl⟩
  have hwv : w ≠ v := fun h => Done.ne_onPath hd (h ▸ hl.tags_self)
  refine ⟨({ acc.1 with roots := acc.1.roots }, acc.2 || w == v), ?_,
    ⟨hl.inv, hl.grows, fun x hx => ?_, by simp [hl.cycles, hwv, hwv.symm]⟩⟩
  · rcases hd with h | h <;> simp [visitEdge, h, hroots, popRoots_of_not_lt, Tag.lt]
  · rcases List.mem_append.1 hx with hx | hx
    · exact hl.edges x hx
    · exact .inl (List.mem_singleton.1 hx ▸ hd)

/-- What a call `dfs(v)` with `fuel` achieves, from a state of the invariant with `v`
unvisited and its caller, if any, innermost: it returns, the invariant holds again, and `v` is
finished or stays on the path at the position it was given. -/
def DfsOk (g : TaskGraph) (fuel : Nat) : Prop :=
  ∀ v act st, Inv g act st → st.tags v = .unvisited → v < g.nodes →
    (∀ u ∈ act.getLast?, (u, v) ∈ g.edges) → unvisitedCount g st ≤ fuel →
    ∃ st', dfs g fuel v st = some st' ∧ Inv g act st' ∧ Grows st st' ∧
      (Done st' v ∨ st'.tags v = .onPath (st.path.length + 1))

/-- One out-edge of `v`: a call of `dfs` on an unvisited node, a merge of blocks on a node on
the path, or nothing on a finished node. -/
theorem LoopInv.step {fuel w : Nat} (hwf : g.WellFormed) (hdfs : DfsOk g fuel)
    (hfuel : unvisitedCount g (push st0 v) ≤ fuel) (hw : (v, w) ∈ g.edges)
    (hl : LoopInv g act v st0 done acc) :
    ∃ acc', visitEdge (dfs g fuel) v acc w = some acc' ∧ LoopInv g act v st0 (done ++ [w]) acc' := by
  have hv := hl.tags_self
  cases ht : acc.1.tags w with
  | unvisited =>
    obtain ⟨st', hst', hi', hgr, hw'⟩ := hdfs w (act ++ [v]) acc.1 hl.inv ht (hwf _ hw).2
      (fun u hu => by simp at hu; exact hu ▸ hw) (hl.grows.unvisitedCount_le.trans hfuel)
    have hwv : w ≠ v := fun h => by rw [h, hv] at ht; cases ht
    refine ⟨(st', acc.2), by simp [visitEdge, ht, hst'], hi', hl.grows.trans hgr, fun x hx => ?_,
      by simp [hl.cycles, hwv.symm]⟩
    rcases List.mem_append.1 hx with hx | hx
    · rcases hl.edges x hx with hd | ⟨q, hq, hb⟩
      · exact .inl (hgr.done x hd)
      · exact .inr ⟨q, hgr.onPath x q hq, hb.mono fun r hr => hgr.roots.subset hr⟩
    · rw [List.mem_singleton.1 hx]
      /- The child stays on the path only above every remaining root. -/
      refine hw'.imp_right fun h => ⟨_, h, sameBlock_of_le fun r hr => ?_⟩
      have hle := hi'.root_le_last (hgr.onPath v _ hv) hr
      exact ⟨hle, hle.trans (by have := (hl.inv.pos hv).2; omega)⟩
  | onPath q =>
    obtain ⟨rs, hpop, hsuf, hle, hi'⟩ := hl.inv.merge hv hw ht
    refine ⟨({ acc.1 with roots := rs }, acc.2 || w == v), by simp [visitEdge, ht, hpop], hi',
      hl.grows.trans ⟨fun _ _ h => h, fun _ h => h, hsuf⟩, fun x hx => ?_, ?_⟩
    swap
    · simp only [Bool.or_eq_true, beq_iff_eq, hl.cycles, List.mem_append, List.mem_singleton]
      exact or_congr_right eq_comm
    rcases List.mem_append.1 hx with hx | hx
    · rcases hl.edges x hx with hd | ⟨q', hq', hb⟩
      · exact .inl hd
      · exact .inr ⟨q', hq', hb.mono fun r hr => hsuf.subset hr⟩
    · rw [List.mem_singleton.1 hx]
      exact .inr ⟨q, ht, sameBlock_of_le fun r hr =>
        ⟨hl.inv.root_le_last hv (hsuf.subset hr), hle r hr⟩⟩
  | single => exact hl.step_done (.inl ht) _
  | scc => exact hl.step_done (.inr ht) _

/-- `dfs` with at least as much fuel as there are unvisited nodes does what `DfsOk` says. -/
theorem dfs_ok (hwf : g.WellFormed) : ∀ fuel, DfsOk g fuel
  | 0 => fun v _ st _ hv hvn _ hc => by
    have : 0 < unvisitedCount g st :=
      List.countP_pos_iff.2 ⟨v, List.mem_range.2 hvn, by simpa using hv⟩
    omega
  | fuel + 1 => fun v act st hi hv hvn hedge hc => by
    have hfuel : unvisitedCount g (push st v) ≤ fuel := by
      have := unvisitedCount_push hv hvn; omega
    obtain ⟨acc, hfold, hl⟩ := exists_foldlM_of_step
      (fun _ w _ hw hl => LoopInv.step hwf (dfs_ok hwf fuel) hfuel (mem_outEdges.1 hw) hl)
      (show ∀ a ∈ outEdges g v, a ∈ outEdges g v from fun _ h => h) (LoopInv.init hi hv hedge)
    rw [List.nil_append] at hl
    obtain ⟨st', hfin, hi', hframe, hvd⟩ := hl.inv.finish_spec hl.tags_self
      (fun w hw => hl.edges w (mem_outEdges.2 hw)) (hl.cycles.trans mem_outEdges)
    refine ⟨st', by rw [dfs, hfold]; exact hfin, hi', ⟨fun u p hu => ?_, fun u hu => ?_, ?_⟩, hvd⟩
    · have huv : u ≠ v := fun h => by rw [h, hv] at hu; cases hu
      exact hframe.onPath u p (hl.grows.onPath u p (by rwa [push_tags_of_ne huv]))
        (by have := (hi.pos hu).2; omega)
    · have huv : u ≠ v := fun h => not_done_of_unvisited hv (h ▸ hu)
      exact hframe.done u (hl.grows.done u (by rwa [Done, push_tags_of_ne huv]))
    · rcases List.suffix_cons_iff.1 (hframe.roots.trans hl.grows.roots) with h | h
      · exact absurd (h ▸ List.mem_cons_self _ _) hframe.notRoot
      · exact h

end Dfs

section Main

variable {g : TaskGraph} {st : DfsAlgo}

theorem Inv.initial : Inv g [] DfsAlgo.init := by
  constructor
  case toComponents => constructor <;> simp [DfsAlgo.init]
  all_goals simp [DfsAlgo.init, Done]

/-- With no call under way, the path is empty: every visited node is finished. -/
theorem Inv.done_of_visited (hi : Inv g [] st) {u : Nat} (hu : st.tags u ≠ .unvisited) :
    Done st u := by
  cases h : st.tags u with
  | unvisited => exact absurd h hu
  | onPath p =>
    obtain ⟨r, hr, -⟩ := hi.covered u p h
    obtain ⟨a, ha, -⟩ := hi.roots r hr
    exact absurd ha (List.not_mem_nil a)
  | single => exact .inl h
  | scc => exact .inr h

/-- The loop of `StronglyConnected` over the nodes: afterwards every node is finished. -/
theorem exists_loop (hwf : g.WellFormed) :
    ∃ st, (List.range g.nodes).foldlM (fun st n =>
        if st.tags n = .unvisited then dfs g g.nodes n st else some st) DfsAlgo.init = some st ∧
      Inv g [] st ∧ ∀ u < g.nodes, Done st u := by
  obtain ⟨st, hst, hi, hvis⟩ := exists_foldlM_of_step
    (f := fun (st : DfsAlgo) (n : Nat) =>
      if st.tags n = .unvisited then dfs g g.nodes n st else some st)
    (P := fun done st => Inv g [] st ∧ ∀ u ∈ done, st.tags u ≠ .unvisited)
    (fun done n st hn ⟨hi, hvis⟩ => by
      by_cases h : st.tags n = .unvisited
      · obtain ⟨st', hst', hi', hgr, hn'⟩ := dfs_ok hwf g.nodes n [] st hi h
          (List.mem_range.1 hn) (by simp) ((List.countP_le_length _).trans (by simp))
        refine ⟨st', by simp [h, hst'], hi', fun u hu => ?_⟩
        rcases List.mem_append.1 hu with hu | hu
        · exact hgr.visited (hvis u hu)
        · rw [List.mem_singleton.1 hu]
          rcases hn' with (hd | hd) | hd <;> simp [hd]
      · refine ⟨st, by simp [h], hi, fun u hu => ?_⟩
        rcases List.mem_append.1 hu with hu | hu
        · exact hvis u hu
        · exact List.mem_singleton.1 hu ▸ h)
    (show ∀ a ∈ List.range g.nodes, a ∈ List.range g.nodes from fun _ h => h)
    ⟨Inv.initial, fun _ h => absurd h (List.not_mem_nil _)⟩
  exact ⟨st, hst, hi, fun u hu => hi.done_of_visited (hvis u (by simpa using hu))⟩

/-- `StronglyConnected` lists each strongly connected component with at least two nodes or a
self-edge once, as its nodes each once, and every other node among the single nodes, once. -/
theorem stronglyConnected_spec (g : TaskGraph) (hwf : g.WellFormed) :
    ∃ sccs singles, stronglyConnected g = some (sccs, singles) ∧
      (∀ c ∈ sccs, c.Nodup ∧ ∃ u ∈ c, (∀ w, w ∈ c ↔ g.Reaches u w ∧ g.Reaches w u) ∧
        (2 ≤ c.length ∨ (u, u) ∈ g.edges)) ∧
      sccs.Pairwise List.Disjoint ∧
      (∀ u < g.nodes, ((∃ w, w ≠ u ∧ g.Reaches u w ∧ g.Reaches w u) ∨ (u, u) ∈ g.edges) →
        ∃ c ∈ sccs, u ∈ c) ∧
      (∀ u, u ∈ singles ↔ u < g.nodes ∧ ∀ c ∈ sccs, u ∉ c) ∧
      singles.Nodup := by
  obtain ⟨st, hst, hi, hdone⟩ := exists_loop hwf
  refine ⟨_, _, by simp only [stronglyConnected, hst]; rfl, hi.sccs, hi.disjoint,
    fun u hu h => ?_, fun u => ?_, (List.nodup_range _).filter _⟩
  · rcases hdone u hu with hs | hs
    · obtain ⟨hscc, hloop⟩ := hi.single u hs
      rcases h with ⟨w, hwu, huw, hwu'⟩ | h
      · exact absurd (hscc w huw hwu') hwu
      · exact absurd h hloop
    · exact (hi.sccTag u).1 hs
  · simp only [List.mem_filter, List.mem_range, decide_eq_true_eq]
    refine ⟨fun ⟨hu, hs⟩ => ⟨hu, fun c hc huc => ?_⟩, fun ⟨hu, hnc⟩ => ⟨hu, ?_⟩⟩
    · have := (hi.sccTag u).2 ⟨c, hc, huc⟩
      rw [hs] at this
      cases this
    · rcases hdone u hu with hs | hs
      · exact hs
      · obtain ⟨c, hc, huc⟩ := (hi.sccTag u).1 hs
        exact absurd huc (hnc c hc)

end Main

/-- Two nodes on a cycle, a node with a self-edge, and a node reached from the cycle. -/
def cycleGraph : TaskGraph := ⟨4, [(0, 1), (1, 0), (2, 2), (1, 3)]⟩

example : stronglyConnected cycleGraph = some ([[0, 1], [2]], [3]) := by decide

theorem cycleGraph_components : cycleGraph.WellFormed ∧
    ∃ sccs singles, stronglyConnected cycleGraph = some (sccs, singles) ∧
      (∀ c ∈ sccs, c.Nodup ∧ ∃ u ∈ c, (∀ w, w ∈ c ↔ cycleGraph.Reaches u w ∧
        cycleGraph.Reaches w u) ∧ (2 ≤ c.length ∨ (u, u) ∈ cycleGraph.edges)) ∧
      sccs.Pairwise List.Disjoint ∧
      (∀ u < cycleGraph.nodes, ((∃ w, w ≠ u ∧ cycleGraph.Reaches u w ∧ cycleGraph.Reaches w u) ∨
        (u, u) ∈ cycleGraph.edges) → ∃ c ∈ sccs, u ∈ c) ∧
      (∀ u, u ∈ singles ↔ u < cycleGraph.nodes ∧ ∀ c ∈ sccs, u ∉ c) ∧
      singles.Nodup :=
  ⟨by decide, stronglyConnected_spec cycleGraph (by decide)⟩

end StronglyConnected

namespace TaskTopoSort

open StronglyConnected

variable {α β : Type}

/-- `TaskTopoSort`: the task graph reordered topologically or, for a cyclic graph, the error with
the components it lists. A failed assertion of `ReorderNodes` is `none`. -/
def taskTopoSort (g : LabelledGraph α β) : Option (Except (List (List Nat)) (LabelledGraph α β)) :=
  let r := getTopologicalOrder g.shape
  if r.1 then (g.reorderNodes r.2).map .ok
  else (stronglyConnected g.shape).map fun p => .error p.1

theorem exists_mem_ne_of_two_le {l : List Nat} (hn : l.Nodup) (hl : 2 ≤ l.length) (u : Nat) :
    ∃ w ∈ l, w ≠ u :=
  ((hn.ne_singleton_iff u).1 fun h => by simp [h] at hl).resolve_left fun h => by simp [h] at hl

/-- The pass always ends: it reorders exactly the acyclic task graphs, and on a cyclic one its
error lists at least one component, each a cycle of tasks. -/
theorem taskTopoSort_spec (g : LabelledGraph α β) (hwf : g.shape.WellFormed) :
    ∃ r, taskTopoSort g = some r ∧ ((∃ g', r = .ok g') ↔ ∀ t, ¬ g.shape.Precedes t t) ∧
      ∀ sccs, r = .error sccs → sccs ≠ [] ∧ ∀ c ∈ sccs, ∃ u ∈ c, g.shape.Precedes u u ∧
        ∀ w, w ∈ c ↔ g.shape.Reaches u w ∧ g.shape.Reaches w u := by
  by_cases hacyc : ∀ t, ¬ g.shape.Precedes t t
  · have hp := perm_of_acyclic hwf hacyc
    obtain ⟨g', hg', -⟩ := LabelledGraph.reorderNodes_perm g hwf hp
    refine ⟨.ok g', by simp [taskTopoSort, (getTopologicalOrder_true_iff _).2 hp, hg'],
      ⟨fun _ => hacyc, fun _ => ⟨g', rfl⟩⟩, fun _ h => by cases h⟩
  obtain ⟨st, hst, hi, hdone⟩ := exists_loop hwf
  have hfalse : (getTopologicalOrder g.shape).1 = false := by
    by_contra h
    exact hacyc (acyclic_of_perm hwf ((getTopologicalOrder_true_iff _).1 (by simpa using h)))
  refine ⟨.error st.sccs, by simp [taskTopoSort, hfalse, stronglyConnected, hst],
    ⟨fun ⟨_, h⟩ => (by cases h), fun h => absurd h hacyc⟩, fun sccs h => ?_⟩
  cases h
  refine ⟨fun hnil => ?_, fun c hc => ?_⟩
  · /- A cycle through `t` leaves `t` in a component. -/
    push_neg at hacyc
    obtain ⟨t, ht⟩ := hacyc
    obtain ⟨x, htx, hxt⟩ := Relation.TransGen.head'_iff.1 ht
    rcases hdone t (hwf _ htx).1 with hs | hs
    · obtain ⟨hscc, hloop⟩ := hi.single t hs
      by_cases hxt' : x = t
      · exact hloop (hxt' ▸ htx)
      · exact hxt' (hscc x (.single htx) hxt)
    · obtain ⟨c, hc, -⟩ := (hi.sccTag t).1 hs
      exact absurd hc (hnil ▸ List.not_mem_nil c)
  · obtain ⟨hn, u, hu, hc', hlen⟩ := hi.sccs c hc
    refine ⟨u, hu, ?_, hc'⟩
    rcases hlen with hlen | hloop
    · obtain ⟨w, hw, hwu⟩ := exists_mem_ne_of_two_le hn hlen u
      obtain ⟨huw, hwu'⟩ := (hc' w).1 hw
      exact (Relation.reflTransGen_iff_eq_or_transGen.1 huw |>.resolve_left hwu).trans_left hwu'
    · exact .single hloop

/-- Two tasks depending on each other, and a third one after them. -/
def cyclicTasks : LabelledGraph Nat Nat := ⟨[10, 20, 30], [(0, 1, 7), (1, 0, 8), (1, 2, 9)]⟩

example : taskTopoSort cyclicTasks = some (.error [[0, 1]]) := rfl

theorem cyclicTasks_sort : cyclicTasks.shape.WellFormed ∧
    ∃ r, taskTopoSort cyclicTasks = some r ∧
      ((∃ g', r = .ok g') ↔ ∀ t, ¬ cyclicTasks.shape.Precedes t t) ∧
      ∀ sccs, r = .error sccs → sccs ≠ [] ∧ ∀ c ∈ sccs, ∃ u ∈ c,
        cyclicTasks.shape.Precedes u u ∧
        ∀ w, w ∈ c ↔ cyclicTasks.shape.Reaches u w ∧ cyclicTasks.shape.Reaches w u :=
  ⟨by decide, taskTopoSort_spec cyclicTasks (by decide)⟩

end TaskTopoSort

end Ladybirds
