import Mathlib.Data.List.Basic

/-! # Graphs with intrusive adjacency lists

`graph::Graph` keeps its nodes and edges in `PresDeque`s and threads each node's edge lists through
the edges. A node or edge is the index of its slot; writing through a pointer to an erased element,
like a failed assertion, is undefined and gives `none`.
-/

namespace Ladybirds

namespace Graph

structure Node where
  firstIn : Option Nat
  firstOut : Option Nat
  deriving DecidableEq, Repr

structure Edge where
  source : Nat
  target : Nat
  prevIn : Option Nat
  nextIn : Option Nat
  prevOut : Option Nat
  nextOut : Option Nat
  deriving DecidableEq, Repr

end Graph

open Graph in
structure Graph where
  nodes : List (Option Node)
  edges : List (Option Edge)
  deriving DecidableEq, Repr

namespace Graph

def empty : Graph := ⟨[], []⟩

/-- The live node in slot `n`. -/
def node? (g : Graph) (n : Nat) : Option Node := (g.nodes[n]?).join

/-- The live edge in slot `e`. -/
def edge? (g : Graph) (e : Nat) : Option Edge := (g.edges[e]?).join

/-- A write through a pointer to node `n`. -/
def setNode (g : Graph) (n : Nat) (f : Node → Node) : Option Graph :=
  (g.node? n).map fun x => { g with nodes := g.nodes.set n (some (f x)) }

/-- A write through a pointer to edge `e`. -/
def setEdge (g : Graph) (e : Nat) (f : Edge → Edge) : Option Graph :=
  (g.edge? e).map fun x => { g with edges := g.edges.set e (some (f x)) }

/-- `if(p) p->... = ...;` through an edge pointer that may be null. -/
def setEdge? (g : Graph) : Option Nat → (Edge → Edge) → Option Graph
  | some e, f => g.setEdge e f
  | none, _ => some g

/-- `EmplaceNode()`: a node without edges. -/
def emplaceNode (g : Graph) : Graph × Nat :=
  ({ g with nodes := g.nodes ++ [some ⟨none, none⟩] }, g.nodes.length)

/-- `EmplaceEdge(source, target)`: the new edge becomes the head of the source's outgoing and the
target's incoming list. -/
def emplaceEdge (g : Graph) (source target : Nat) : Option (Graph × Nat) := do
  let s ← g.node? source
  let t ← g.node? target
  let e := g.edges.length
  let g := { g with edges := g.edges ++ [some (Edge.mk source target none t.firstIn none s.firstOut)] }
  let g ← g.setNode source fun n => { n with firstOut := some e }
  let g ← g.setNode target fun n => { n with firstIn := some e }
  pure (g, e)

/-- `RemoveEdge(edge)`: unlinks the edge from both lists, through its `Prev` pointers or, where
these are null, through the node's head pointer, and erases it. -/
def removeEdge (g : Graph) (e : Nat) : Option Graph := do
  let x ← g.edge? e
  let g ← match x.prevOut with
    | some p => g.setEdge p fun y => { y with nextOut := x.nextOut }
    | none => g.setNode x.source fun n => { n with firstOut := x.nextOut }
  let g ← g.setEdge? x.nextOut fun y => { y with prevOut := x.prevOut }
  let g ← match x.prevIn with
    | some p => g.setEdge p fun y => { y with nextIn := x.nextIn }
    | none => g.setNode x.target fun n => { n with firstIn := x.nextIn }
  let g ← g.setEdge? x.nextIn fun y => { y with prevIn := x.prevIn }
  pure { g with edges := g.edges.set e none }

/-- The loops of `RemoveNode`, `for(it = begin; it != end; ) RemoveEdge(&*it++);`, which read the
next edge before removing the current one; `fuel` bounds the passes. -/
def removeEdgesFrom (next : Edge → Option Nat) (g : Graph) : Nat → Option Nat → Option Graph
  | _, none => some g
  | 0, some _ => none
  | fuel + 1, some e => do
    let x ← g.edge? e
    let g ← g.removeEdge e
    removeEdgesFrom next g fuel (next x)

/-- `RemoveNode(node)`: its outgoing, then its incoming edges, then the node. -/
def removeNode (g : Graph) (n : Nat) : Option Graph := do
  let x ← g.node? n
  let g ← removeEdgesFrom Edge.nextOut g g.edges.length x.firstOut
  let y ← g.node? n
  let g ← removeEdgesFrom Edge.nextIn g g.edges.length y.firstIn
  pure { g with nodes := g.nodes.set n none }

/-- The edges an iterator visits from `start` on, following `next`; `fuel` bounds the steps. -/
def walk (g : Graph) (next : Edge → Option Nat) : Nat → Option Nat → List Nat
  | _, none => []
  | 0, some _ => []
  | fuel + 1, some e => e :: ((g.edge? e).map fun x => walk g next fuel (next x)).getD []

/-- `OutEdges()` of node `n`. -/
def outEdges (g : Graph) (n : Nat) : List Nat :=
  g.walk Edge.nextOut g.edges.length ((g.node? n).bind Node.firstOut)

/-- `InEdges()` of node `n`. -/
def inEdges (g : Graph) (n : Nat) : List Nat :=
  g.walk Edge.nextIn g.edges.length ((g.node? n).bind Node.firstIn)

inductive Op where
  | emplaceNode
  | emplaceEdge (source target : Nat)
  | removeEdge (e : Nat)
  | removeNode (n : Nat)
  deriving DecidableEq, Repr

def Op.isInsert : Op → Bool
  | .emplaceNode | .emplaceEdge _ _ => true
  | _ => false

def Op.apply (g : Graph) : Op → Option Graph
  | .emplaceNode => some g.emplaceNode.1
  | .emplaceEdge s t => (g.emplaceEdge s t).map Prod.fst
  | .removeEdge e => g.removeEdge e
  | .removeNode n => g.removeNode n

def run (g : Graph) : List Op → Option Graph
  | [] => some g
  | op :: ops => (op.apply g).bind (run · ops)

variable {g g' : Graph}

theorem lt_of_node? {n : Nat} {y : Node} (h : g.node? n = some y) : n < g.nodes.length := by
  by_contra hn
  simp [node?, List.getElem?_eq_none (Nat.le_of_not_lt hn)] at h

theorem lt_of_edge? {e : Nat} (h : (g.edge? e).isSome) : e < g.edges.length := by
  by_contra he
  simp [edge?, List.getElem?_eq_none (Nat.le_of_not_lt he)] at h

theorem node?_setNodes {n m : Nat} {v : Option Node} (hn : n < g.nodes.length) :
    ({ g with nodes := g.nodes.set n v } : Graph).node? m = if n = m then v else g.node? m := by
  simp only [node?, List.getElem?_set, hn]
  split_ifs <;> simp

theorem edge?_setEdges {e m : Nat} {v : Option Edge} (he : e < g.edges.length) :
    ({ g with edges := g.edges.set e v } : Graph).edge? m = if e = m then v else g.edge? m := by
  simp only [edge?, List.getElem?_set, he]
  split_ifs <;> simp

theorem setNode_eq {n : Nat} {y : Node} {f : Node → Node} (h : g.node? n = some y) :
    g.setNode n f = some { g with nodes := g.nodes.set n (some (f y)) } := by
  simp [setNode, h]

theorem setEdge_eq {e : Nat} {x : Edge} {f : Edge → Edge} (h : g.edge? e = some x) :
    g.setEdge e f = some { g with edges := g.edges.set e (some (f x)) } := by
  simp [setEdge, h]

theorem setNode_edges {n : Nat} {f : Node → Node} (h : g.setNode n f = some g') :
    g'.edges = g.edges ∧ g'.nodes.length = g.nodes.length := by
  simp only [setNode, Option.map_eq_some'] at h
  obtain ⟨_, -, rfl⟩ := h
  simp

theorem setNode_edge? {n : Nat} {f : Node → Node} (h : g.setNode n f = some g') :
    g'.edge? = g.edge? := by
  funext m
  simp only [edge?, (setNode_edges h).1]

theorem setNode_node? {n : Nat} {f : Node → Node} (h : g.setNode n f = some g') (m : Nat) :
    g'.node? m = if n = m then (g.node? n).map f else g.node? m := by
  simp only [setNode, Option.map_eq_some'] at h
  obtain ⟨y, hy, rfl⟩ := h
  simp [node?_setNodes (lt_of_node? hy), hy]

theorem setEdge_node? {e : Nat} {f : Edge → Edge} (h : g.setEdge e f = some g') :
    g'.node? = g.node? := by
  simp only [setEdge, Option.map_eq_some'] at h
  obtain ⟨_, -, rfl⟩ := h
  rfl

theorem setEdge_edge? {e : Nat} {f : Edge → Edge} (h : g.setEdge e f = some g') (m : Nat) :
    g'.edge? m = if e = m then (g.edge? e).map f else g.edge? m := by
  simp only [setEdge, Option.map_eq_some'] at h
  obtain ⟨y, hy, rfl⟩ := h
  simp [edge?_setEdges (lt_of_edge? (Option.isSome_iff_exists.mpr ⟨_, hy⟩)), hy]

theorem setEdge?_node? {p : Option Nat} {f : Edge → Edge} (h : g.setEdge? p f = some g') :
    g'.node? = g.node? := by
  cases p with
  | none => cases h; rfl
  | some e => exact setEdge_node? h

theorem setEdge?_edge? {p : Option Nat} {f : Edge → Edge} (h : g.setEdge? p f = some g') (m : Nat) :
    g'.edge? m = if p = some m then (g.edge? m).map f else g.edge? m := by
  cases p with
  | none => cases h; simp
  | some e => rw [setEdge_edge? h m]; by_cases hem : e = m <;> simp [hem]

theorem setEdge?_isSome {p : Option Nat} {f : Edge → Edge} (h : g.setEdge? p f = some g') (m : Nat) :
    (g'.edge? m).isSome = (g.edge? m).isSome := by
  rw [setEdge?_edge? h m]
  split_ifs <;> simp

theorem setEdge?_of_live {p : Option Nat} (f : Edge → Edge) (h : ∀ e ∈ p, (g.edge? e).isSome) :
    ∃ g', g.setEdge? p f = some g' := by
  cases p with
  | none => exact ⟨g, rfl⟩
  | some e =>
    obtain ⟨y, hy⟩ := Option.isSome_iff_exists.mp (h e rfl)
    exact ⟨_, setEdge_eq hy⟩

/-- `RemoveEdge` of an edge whose `Prev` pointers are null: the head of its source's outgoing list
moves to its successor, whatever edges came before it, and no other edge changes its place in an
outgoing list. -/
theorem removeEdge_of_prev_none {e : Nat} {x : Edge} (hx : g.edge? e = some x)
    (hpo : x.prevOut = none) (hpi : x.prevIn = none)
    (hs : (g.node? x.source).isSome) (ht : (g.node? x.target).isSome)
    (hno : ∀ q ∈ x.nextOut, (g.edge? q).isSome) (hni : ∀ q ∈ x.nextIn, (g.edge? q).isSome) :
    ∃ g', g.removeEdge e = some g' ∧ (g'.node? x.source).bind Node.firstOut = x.nextOut ∧
      g'.edge? e = none ∧
      ∀ m ≠ e, (g'.edge? m).map (fun y => (y.source, y.nextOut)) =
        (g.edge? m).map (fun y => (y.source, y.nextOut)) := by
  obtain ⟨ys, hys⟩ := Option.isSome_iff_exists.mp hs
  obtain ⟨g1, h1⟩ : ∃ g1, g.setNode x.source (fun n => { n with firstOut := x.nextOut }) = some g1 :=
    ⟨_, setNode_eq hys⟩
  obtain ⟨g2, h2⟩ := @setEdge?_of_live g1 x.nextOut (fun y => { y with prevOut := none })
    (by simpa [setNode_edge? h1] using hno)
  have hn2 : g2.node? = g1.node? := setEdge?_node? h2
  have hs2 : g2.node? x.source = some { ys with firstOut := x.nextOut } := by
    simp [hn2, setNode_node? h1, hys]
  obtain ⟨yt, hyt⟩ : ∃ y, g2.node? x.target = some y := by
    rw [hn2, setNode_node? h1]
    split_ifs with hst
    · simp [← hst, hys]
    · exact Option.isSome_iff_exists.mp ht
  obtain ⟨g3, h3⟩ : ∃ g3, g2.setNode x.target (fun n => { n with firstIn := x.nextIn }) = some g3 :=
    ⟨_, setNode_eq hyt⟩
  obtain ⟨g4, h4⟩ := @setEdge?_of_live g3 x.nextIn (fun y => { y with prevIn := none })
    (fun q hq => by rw [setNode_edge? h3, setEdge?_isSome h2, setNode_edge? h1]; exact hni q hq)
  have he4 : e < g4.edges.length := lt_of_edge? (by
    rw [setEdge?_isSome h4, setNode_edge? h3, setEdge?_isSome h2, setNode_edge? h1, hx]; rfl)
  refine ⟨{ g4 with edges := g4.edges.set e none }, ?_, ?_, ?_, ?_⟩
  · simp [removeEdge, hx, hpo, hpi, h1, h2, h3, h4]
  · show (g4.node? x.source).bind Node.firstOut = x.nextOut
    rw [setEdge?_node? h4, setNode_node? h3]
    split_ifs with hts
    · rw [hts]; simp [hs2]
    · simp [hs2]
  · simp [edge?_setEdges he4]
  · intro m hm
    rw [edge?_setEdges he4, if_neg (Ne.symm hm), setEdge?_edge? h4, setNode_edge? h3,
      setEdge?_edge? h2, setNode_edge? h1]
    split_ifs <;> cases g.edge? m <;> rfl

/-- Along `NextOut` pointers that lead to lower slots, an iterator never comes back above where it
started. -/
theorem le_of_mem_walk {next : Edge → Option Nat}
    (hdec : ∀ e y, g.edge? e = some y → ∀ q ∈ next y, q < e) :
    ∀ (fuel s : Nat), ∀ m ∈ g.walk next fuel (some s), m ≤ s
  | 0, _, m, hm => by simp [walk] at hm
  | fuel + 1, s, m, hm => by
    simp only [walk, List.mem_cons] at hm
    rcases hm with rfl | hm
    · exact Nat.le_refl m
    · cases hs : g.edge? s with
      | none => simp [hs] at hm
      | some y =>
        cases hq : next y with
        | none => simp [hs, hq, walk] at hm
        | some q =>
          simp only [hs, hq, Option.map_some', Option.getD_some] at hm
          exact Nat.le_of_lt (Nat.lt_of_le_of_lt (le_of_mem_walk hdec fuel q m hm) (hdec s y hs q hq))

/-- Node `m` once `EmplaceEdge(s, t)` has made edge `e` the head of its lists. -/
def emplaceEdgeNode (s t e : Nat) (m : Nat) (y : Node) : Node :=
  ⟨if t = m then some e else y.firstIn, if s = m then some e else y.firstOut⟩

theorem emplaceEdge_spec {s t : Nat} {ys yt : Node} (hs : g.node? s = some ys) (ht : g.node? t = some yt) :
    ∃ g', g.emplaceEdge s t = some (g', g.edges.length) ∧ g'.nodes.length = g.nodes.length ∧
      g'.edges = g.edges ++ [some ⟨s, t, none, yt.firstIn, none, ys.firstOut⟩] ∧
      ∀ m, g'.node? m = (g.node? m).map (emplaceEdgeNode s t g.edges.length m) := by
  let g1 : Graph := { g with edges := g.edges ++ [some ⟨s, t, none, yt.firstIn, none, ys.firstOut⟩] }
  obtain ⟨g2, h2⟩ : ∃ g2, g1.setNode s (fun n => { n with firstOut := some g.edges.length }) = some g2 :=
    ⟨_, @setNode_eq g1 s ys _ hs⟩
  have hg1 : g1.node? = g.node? := rfl
  obtain ⟨yt', hyt'⟩ : ∃ y, g2.node? t = some y := by
    rw [setNode_node? h2, hg1]
    split_ifs with hst
    · simp [hs]
    · exact ⟨_, ht⟩
  obtain ⟨g3, h3⟩ : ∃ g3, g2.setNode t (fun n => { n with firstIn := some g.edges.length }) = some g3 :=
    ⟨_, setNode_eq hyt'⟩
  refine ⟨g3, ?_, ?_, ?_, fun m => ?_⟩
  · simp [emplaceEdge, hs, ht, g1] at h2 ⊢
    simp [h2, h3]
  · rw [(setNode_edges h3).2, (setNode_edges h2).2]
  · rw [(setNode_edges h3).1, (setNode_edges h2).1]
  · simp only [setNode_node? h3, setNode_node? h2, hg1]
    split_ifs <;> subst_vars <;> cases g.node? _ <;> simp_all [emplaceEdgeNode]

theorem edge?_of_edges_eq {x : Edge} (h : g'.edges = g.edges ++ [some x]) (m : Nat) :
    g'.edge? m = if m = g.edges.length then some x else g.edge? m := by
  simp only [edge?, h, List.getElem?_append]
  split_ifs with h1 h2 h2
  · omega
  · rfl
  · simp [h2]
  · have hm : [some x][m - g.edges.length]? = none := List.getElem?_eq_none (by simp; omega)
    simp [hm, List.getElem?_eq_none (show g.edges.length ≤ m by omega)]

/-- A successful `EmplaceEdge(s, t)` adds one edge from `s` to `t` in a new slot and keeps the
others. -/
theorem emplaceEdge_edge? {s t e : Nat} (h : g.emplaceEdge s t = some (g', e)) :
    e = g.edges.length ∧ ∃ x : Edge, x.source = s ∧ x.target = t ∧
      ∀ m, g'.edge? m = if m = e then some x else g.edge? m := by
  obtain ⟨ys, hs⟩ : ∃ y, g.node? s = some y := by
    cases hs : g.node? s <;> simp_all [Graph.emplaceEdge]
  obtain ⟨yt, ht⟩ : ∃ y, g.node? t = some y := by
    cases ht : g.node? t <;> simp_all [Graph.emplaceEdge]
  obtain ⟨g'', h'', -, hedges, -⟩ := emplaceEdge_spec hs ht
  obtain ⟨rfl, rfl⟩ : g'' = g' ∧ g.edges.length = e := by simpa [h''] using h
  exact ⟨rfl, _, rfl, rfl, edge?_of_edges_eq hedges⟩

theorem node?_emplaceNode (m : Nat) :
    g.emplaceNode.1.node? m = if m = g.nodes.length then some ⟨none, none⟩ else g.node? m := by
  simp only [emplaceNode, node?, List.getElem?_append]
  split_ifs with h1 h2 h2
  · omega
  · rfl
  · simp [h2]
  · have hm : [some (Node.mk none none)][m - g.nodes.length]? = none :=
      List.getElem?_eq_none (by simp; omega)
    simp [hm, List.getElem?_eq_none (show g.nodes.length ≤ m by omega)]

/-- What every graph built by `EmplaceNode` and `EmplaceEdge` alone satisfies: all slots are live,
no `Prev` pointer is set, `Next` pointers lead to older edges, and the head of each outgoing list
is the newest edge leaving its node. -/
structure InsertOnly (g : Graph) : Prop where
  node_live : ∀ n < g.nodes.length, (g.node? n).isSome
  edge_live : ∀ e < g.edges.length, (g.edge? e).isSome
  ends_lt : ∀ e x, g.edge? e = some x → x.source < g.nodes.length ∧ x.target < g.nodes.length
  prev_none : ∀ e x, g.edge? e = some x → x.prevOut = none ∧ x.prevIn = none
  next_lt : ∀ e x, g.edge? e = some x → (∀ q ∈ x.nextOut, q < e) ∧ ∀ q ∈ x.nextIn, q < e
  firstOut_source : ∀ n y, g.node? n = some y → ∀ h ∈ y.firstOut,
    ∃ z, g.edge? h = some z ∧ z.source = n
  firstIn_lt : ∀ n y, g.node? n = some y → ∀ h ∈ y.firstIn, h < g.edges.length
  firstOut_max : ∀ n y e x, g.node? n = some y → g.edge? e = some x → x.source = n →
    ∃ h ∈ y.firstOut, e ≤ h

theorem insertOnly_empty : InsertOnly empty :=
  ⟨by simp [empty], by simp [empty], by simp [empty, edge?], by simp [empty, edge?],
    by simp [empty, edge?], by simp [empty, node?], by simp [empty, node?], by simp [empty, node?]⟩

theorem InsertOnly.emplaceNode (hg : InsertOnly g) : InsertOnly g.emplaceNode.1 := by
  have hedge : g.emplaceNode.1.edge? = g.edge? := rfl
  have hlen : g.emplaceNode.1.nodes.length = g.nodes.length + 1 := by simp [Graph.emplaceNode]
  constructor
  · intro n hn
    rw [node?_emplaceNode]
    split_ifs with h
    · rfl
    · exact hg.node_live n (by omega)
  · exact hg.edge_live
  · intro e x hx
    rw [hlen]
    have := hg.ends_lt e x hx
    omega
  · exact hg.prev_none
  · exact hg.next_lt
  · intro n y hy
    rw [node?_emplaceNode] at hy
    split_ifs at hy
    · cases hy; simp
    · exact hg.firstOut_source n y hy
  · intro n y hy
    rw [node?_emplaceNode] at hy
    split_ifs at hy
    · cases hy; simp
    · exact hg.firstIn_lt n y hy
  · intro n y e x hy hx hxn
    rw [node?_emplaceNode] at hy
    split_ifs at hy with hn
    · have := (hg.ends_lt e x hx).1; omega
    · exact hg.firstOut_max n y e x hy hx hxn

theorem InsertOnly.emplaceEdge {s t e : Nat} (hg : InsertOnly g)
    (h : g.emplaceEdge s t = some (g', e)) : InsertOnly g' := by
  obtain ⟨ys, hs⟩ : ∃ y, g.node? s = some y := by
    cases hs : g.node? s <;> simp_all [Graph.emplaceEdge]
  obtain ⟨yt, ht⟩ : ∃ y, g.node? t = some y := by
    cases ht : g.node? t <;> simp_all [Graph.emplaceEdge]
  obtain ⟨g'', h'', hlen, hedges, hnode⟩ := emplaceEdge_spec hs ht
  obtain ⟨rfl, rfl⟩ : g'' = g' ∧ g.edges.length = e := by simpa [h''] using h
  have hedge := edge?_of_edges_eq hedges
  have hE : g''.edges.length = g.edges.length + 1 := by simp [hedges]
  -- a node of the new graph is an old node with the new edge as possible head
  have hnode' : ∀ n y, g''.node? n = some y →
      ∃ y0, g.node? n = some y0 ∧ y = emplaceEdgeNode s t g.edges.length n y0 := by
    intro n y hy
    rw [hnode, Option.map_eq_some'] at hy
    obtain ⟨y0, hy0, rfl⟩ := hy
    exact ⟨y0, hy0, rfl⟩
  constructor
  · intro n hn
    rw [hnode]
    simpa using hg.node_live n (by omega)
  · intro e he
    rw [hedge]
    split_ifs
    · rfl
    · exact hg.edge_live e (by omega)
  · intro e x hx
    rw [hedge] at hx
    rw [hlen]
    split_ifs at hx
    · cases hx; exact ⟨lt_of_node? hs, lt_of_node? ht⟩
    · exact hg.ends_lt e x hx
  · intro e x hx
    rw [hedge] at hx
    split_ifs at hx
    · cases hx; exact ⟨rfl, rfl⟩
    · exact hg.prev_none e x hx
  · intro e x hx
    rw [hedge] at hx
    split_ifs at hx with he
    · cases hx
      subst he
      refine ⟨fun q hq => ?_, fun q hq => hg.firstIn_lt t yt ht q hq⟩
      obtain ⟨z, hz, -⟩ := hg.firstOut_source s ys hs q hq
      exact lt_of_edge? (Option.isSome_iff_exists.mpr ⟨_, hz⟩)
    · exact hg.next_lt e x hx
  · intro n y hy h hh
    obtain ⟨y0, hy0, rfl⟩ := hnode' n y hy
    simp only [emplaceEdgeNode] at hh
    split_ifs at hh with hsn
    · cases hh; exact ⟨_, by rw [hedge, if_pos rfl], hsn⟩
    · obtain ⟨z, hz, hzn⟩ := hg.firstOut_source n y0 hy0 h hh
      have hlt := lt_of_edge? (Option.isSome_iff_exists.mpr ⟨_, hz⟩)
      exact ⟨z, by rw [hedge, if_neg (by omega), hz], hzn⟩
  · intro n y hy h hh
    obtain ⟨y0, hy0, rfl⟩ := hnode' n y hy
    simp only [emplaceEdgeNode] at hh
    rw [hE]
    split_ifs at hh
    · cases hh; omega
    · have := hg.firstIn_lt n y0 hy0 h hh; omega
  · intro n y e x hy hx hxn
    obtain ⟨y0, hy0, rfl⟩ := hnode' n y hy
    rw [hedge] at hx
    simp only [emplaceEdgeNode]
    split_ifs at hx with he
    · cases hx
      subst hxn
      simp [he]
    · have hlt := lt_of_edge? (Option.isSome_iff_exists.mpr ⟨_, hx⟩)
      obtain ⟨h, hh, hle⟩ := hg.firstOut_max n y0 e x hy0 hx hxn
      split_ifs
      · exact ⟨_, rfl, by omega⟩
      · exact ⟨h, hh, hle⟩

theorem InsertOnly.run {ops : List Op} (hops : ∀ op ∈ ops, op.isInsert) :
    ∀ {g g' : Graph}, InsertOnly g → g.run ops = some g' → InsertOnly g' := by
  induction ops with
  | nil => intro g g' hg h; cases h; exact hg
  | cons op ops ih =>
    intro g g' hg h
    simp only [Graph.run, Option.bind_eq_some] at h
    obtain ⟨g1, h1, h2⟩ := h
    refine ih (fun op h => hops op (List.mem_cons_of_mem _ h)) ?_ h2
    cases op with
    | emplaceNode => cases h1; exact hg.emplaceNode
    | emplaceEdge s t =>
      obtain ⟨⟨g2, e⟩, he, rfl⟩ := Option.map_eq_some'.mp h1
      exact hg.emplaceEdge he
    | removeEdge _ => simp [Op.isInsert] at hops
    | removeNode _ => simp [Op.isInsert] at hops

/-- In a graph built by insertions alone, `RemoveEdge` succeeds on every edge: its successor
becomes the head of its source's outgoing list, and every other edge keeps its source and
successor. -/
theorem InsertOnly.removeEdge {e : Nat} {x : Edge} (hg : InsertOnly g) (hx : g.edge? e = some x) :
    ∃ g', g.removeEdge e = some g' ∧ (g'.node? x.source).bind Node.firstOut = x.nextOut ∧
      g'.edge? e = none ∧
      ∀ m ≠ e, (g'.edge? m).map (fun y => (y.source, y.nextOut)) =
        (g.edge? m).map (fun y => (y.source, y.nextOut)) := by
  have hends := hg.ends_lt e x hx
  have hnext := hg.next_lt e x hx
  have hlive : ∀ q < e, (g.edge? q).isSome := fun q hq =>
    hg.edge_live q (Nat.lt_trans hq (lt_of_edge? (Option.isSome_iff_exists.mpr ⟨_, hx⟩)))
  exact removeEdge_of_prev_none hx (hg.prev_none e x hx).1 (hg.prev_none e x hx).2
    (hg.node_live _ hends.1) (hg.node_live _ hends.2) (fun q hq => hlive q (hnext.1 q hq))
    (fun q hq => hlive q (hnext.2 q hq))

/-- After any sequence of `EmplaceNode` and `EmplaceEdge` calls, `RemoveEdge` of an edge leaving
`n` that is not the head of `n`'s outgoing list drops the head from `OutEdges()` of `n`, though the
head stays in the graph with source `n`. -/
theorem removeEdge_drops_head {ops : List Op} {n h e : Nat} (hops : ∀ op ∈ ops, op.isInsert)
    (hrun : empty.run ops = some g) (hh : (g.node? n).bind Node.firstOut = some h)
    (he : (g.edge? e).map Edge.source = some n) (hne : e ≠ h) :
    ∃ g', g.removeEdge e = some g' ∧ h ∉ g'.outEdges n ∧ (g'.edge? h).map Edge.source = some n := by
  have hg := InsertOnly.run hops insertOnly_empty hrun
  obtain ⟨x, hx, rfl⟩ := Option.map_eq_some'.mp he
  obtain ⟨y, hy, hyh⟩ := Option.bind_eq_some.mp hh
  obtain ⟨g', hrem, hhead, hgone, hlinks⟩ := hg.removeEdge hx
  -- the head is newer than every other edge of its list
  have heh : e < h := by
    obtain ⟨h', hh', hle⟩ := hg.firstOut_max x.source y e x hy hx rfl
    rw [hyh, Option.mem_def, Option.some.injEq] at hh'
    omega
  refine ⟨g', hrem, fun hmem => ?_, ?_⟩
  · -- the walk starts below `e`, and every successor pointer left goes down
    have hdec : ∀ m y', g'.edge? m = some y' → ∀ q ∈ y'.nextOut, q < m := by
      intro m y' hy' q hq'
      have hm : m ≠ e := by rintro rfl; simp [hgone] at hy'
      have hl := hlinks m hm
      rw [hy'] at hl
      obtain ⟨y0, hy0, heq⟩ := Option.map_eq_some'.mp hl.symm
      simp only [Prod.mk.injEq] at heq
      exact (hg.next_lt m y0 hy0).1 q (heq.2 ▸ hq')
    unfold outEdges at hmem
    rw [hhead] at hmem
    cases hq : x.nextOut with
    | none => simp [hq, walk] at hmem
    | some q =>
      rw [hq] at hmem
      have := le_of_mem_walk hdec _ q h hmem
      have := (hg.next_lt e x hx).1 q hq
      omega
  · obtain ⟨z, hz, hzs⟩ := hg.firstOut_source x.source y hy h hyh
    have hl := hlinks h (Nat.ne_of_gt heh)
    rw [hz] at hl
    obtain ⟨y', hy', heq⟩ := Option.map_eq_some'.mp hl
    simp only [Prod.mk.injEq] at heq
    simp [hy', heq.1, hzs]

/-- Two parallel edges from node 0 to node 1. -/
def twoParallel : List Op := [.emplaceNode, .emplaceNode, .emplaceEdge 0 1, .emplaceEdge 0 1]

/-- The graph `twoParallel` builds: edge 1, the newer, heads both lists. -/
def twoParallelGraph : Graph :=
  ⟨[some ⟨none, some 1⟩, some ⟨some 1, none⟩],
    [some ⟨0, 1, none, none, none, none⟩, some ⟨0, 1, none, some 0, none, some 0⟩]⟩

theorem removeEdge_first_of_two :
    ((∀ op ∈ twoParallel, op.isInsert) ∧ empty.run twoParallel = some twoParallelGraph ∧
      (twoParallelGraph.node? 0).bind Node.firstOut = some 1 ∧
      (twoParallelGraph.edge? 0).map Edge.source = some 0 ∧ (0 : Nat) ≠ 1) ∧
    ∃ g', twoParallelGraph.removeEdge 0 = some g' ∧ 1 ∉ g'.outEdges 0 ∧
      (g'.edge? 1).map Edge.source = some 0 :=
  ⟨⟨by decide, by decide, rfl, rfl, by decide⟩,
    @removeEdge_drops_head twoParallelGraph twoParallel 0 1 0 (by decide) (by decide) rfl rfl
      (by decide)⟩

end Graph

end Ladybirds
