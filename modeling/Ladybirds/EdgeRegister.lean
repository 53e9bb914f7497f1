import Ladybirds.Graph

/-! # Edge registers

`graph::EdgeRegister` hands out one edge per key of `Map_`, a hash of the two node addresses in
which the 64-bit shift drops the upper half of the second address: over every run, two calls return
one edge exactly when their pairs hash the same. Nodes are slots with an address each (`addr`).
-/

namespace Ladybirds

open Graph

/-- `EdgeRegister`: the graph it adds to and `Map_`. -/
structure EdgeRegister where
  graph : Graph
  map : BitVec 64 → Option Nat

namespace EdgeRegister

/-- `EdgeRegister__BidirectionalHash::hash`; `sizeof(p1) * 4` is 32. -/
def biHash (p1 p2 : BitVec 64) : BitVec 64 := p1 ^^^ (p2 <<< 32)

/-- `EdgeRegister__UnidirectionalHash::hash`: pointers compare as addresses. -/
def uniHash (p1 p2 : BitVec 64) : BitVec 64 := if p1 < p2 then biHash p1 p2 else biHash p2 p1

section Model

variable (hash : BitVec 64 → BitVec 64 → BitVec 64) (addr : Nat → BitVec 64)

/-- The constructor: each edge of the graph is entered under the hash of its end nodes, a later
edge replacing an earlier one. -/
def ofGraph (g : Graph) : EdgeRegister :=
  ⟨g, g.edges.enum.foldl (fun m ex => match ex.2 with
      | some x => Function.update m (hash (addr x.source) (addr x.target)) (some ex.1)
      | none => m) fun _ => none⟩

/-- `Find(source, target)`. -/
def find (r : EdgeRegister) (s t : Nat) : Option Nat := r.map (hash (addr s) (addr t))

/-- `operator()(source, target)`: the edge under the pair's key, or a new one entered there. -/
def call (r : EdgeRegister) (s t : Nat) : Option (EdgeRegister × Nat) :=
  let k := hash (addr s) (addr t)
  match r.map k with
  | some e => some (r, e)
  | none => (r.graph.emplaceEdge s t).map fun ge => (⟨ge.1, Function.update r.map k (some ge.2)⟩, ge.2)

/-- A sequence of calls and the edges they return. -/
def runCalls : EdgeRegister → List (Nat × Nat) → Option (EdgeRegister × List Nat)
  | r, [] => some (r, [])
  | r, (s, t) :: calls => do
    let (r, e) ← r.call hash addr s t
    let (r, es) ← runCalls r calls
    pure (r, e :: es)

end Model

section Keyed

variable {hash : BitVec 64 → BitVec 64 → BitVec 64} {addr : Nat → BitVec 64}

/-- Every entry of `Map_` is an edge of the graph whose end nodes hash to the entry's key. -/
def Consistent (hash : BitVec 64 → BitVec 64 → BitVec 64) (addr : Nat → BitVec 64)
    (r : EdgeRegister) : Prop :=
  ∀ k e, r.map k = some e → ∃ x, r.graph.edge? e = some x ∧ hash (addr x.source) (addr x.target) = k

theorem consistent_ofGraph (g : Graph) : Consistent hash addr (ofGraph hash addr g) := by
  suffices h : ∀ (l : List (Nat × Option Edge)) (m : BitVec 64 → Option Nat),
      (∀ ex ∈ l, g.edges[ex.1]? = some ex.2) →
      (∀ k e, m k = some e → ∃ x, g.edge? e = some x ∧ hash (addr x.source) (addr x.target) = k) →
      ∀ k e, l.foldl (fun m ex => match ex.2 with
        | some x => Function.update m (hash (addr x.source) (addr x.target)) (some ex.1)
        | none => m) m k = some e →
        ∃ x, g.edge? e = some x ∧ hash (addr x.source) (addr x.target) = k from
    h _ _ (fun _ hex => List.mem_enum_iff_getElem?.1 hex) (fun _ _ h => nomatch h)
  intro l
  induction l with
  | nil => exact fun _ _ hm => hm
  | cons ex l ih =>
    intro m hl hm
    refine ih _ (fun ex' h => hl ex' (List.mem_cons_of_mem _ h)) fun k e hk => ?_
    have hex := hl ex (List.mem_cons_self _ _)
    rcases ex with ⟨i, _ | x⟩
    · exact hm k e hk
    · by_cases hkx : k = hash (addr x.source) (addr x.target)
      · subst hkx
        obtain rfl : i = e := by simpa using hk
        exact ⟨x, by simp [edge?, hex], rfl⟩
      · exact hm k e (by simpa [Function.update_noteq hkx] using hk)

/-- One call keeps the register consistent, returns the edge `Map_` then holds under the pair's
key, and keeps every entry. -/
theorem call_spec {r r' : EdgeRegister} {s t e : Nat} (hc : Consistent hash addr r)
    (h : r.call hash addr s t = some (r', e)) :
    Consistent hash addr r' ∧ r'.map (hash (addr s) (addr t)) = some e ∧
      ∀ k e', r.map k = some e' → r'.map k = some e' := by
  simp only [call] at h
  split at h
  case h_1 e' hk =>
    obtain ⟨rfl, rfl⟩ := Prod.mk.inj (Option.some.inj h)
    exact ⟨hc, hk, fun _ _ => id⟩
  case h_2 hk =>
    obtain ⟨⟨g', e'⟩, hg, he⟩ := Option.map_eq_some'.1 h
    obtain ⟨rfl, rfl⟩ := Prod.mk.inj he
    obtain ⟨rfl, x, hxs, hxt, hedge⟩ := emplaceEdge_edge? hg
    have hold : ∀ k e', r.map k = some e' → e' ≠ r.graph.edges.length := fun k e' h he' => by
      obtain ⟨y, hy, -⟩ := hc k e' h
      exact absurd (lt_of_edge? (show (r.graph.edge? e').isSome by simp [hy])) (by omega)
    dsimp only
    refine ⟨fun k e' hk' => ?_, by simp, fun k e' hk' => ?_⟩
    · dsimp only at hk' ⊢
      by_cases hkk : k = hash (addr s) (addr t)
      · subst hkk
        obtain rfl : r.graph.edges.length = e' := by simpa using hk'
        exact ⟨x, by simp [hedge], by rw [hxs, hxt]⟩
      · rw [Function.update_noteq hkk] at hk'
        rw [hedge, if_neg (hold k e' hk')]
        exact hc k e' hk'
    · have : k ≠ hash (addr s) (addr t) := fun h' => by simp_all
      rwa [Function.update_noteq this]

theorem runCalls_spec {calls : List (Nat × Nat)} :
    ∀ {r r' : EdgeRegister} {es : List Nat}, Consistent hash addr r →
      runCalls hash addr r calls = some (r', es) →
      Consistent hash addr r' ∧ es.length = calls.length ∧
        (∀ c ∈ calls.zip es, r'.map (hash (addr c.1.1) (addr c.1.2)) = some c.2) ∧
        ∀ k e', r.map k = some e' → r'.map k = some e' := by
  induction calls with
  | nil =>
    intro r r' es hc h
    obtain ⟨rfl, rfl⟩ := Prod.mk.inj (Option.some.inj h)
    exact ⟨hc, rfl, by simp, fun _ _ => id⟩
  | cons c calls ih =>
    intro r r' es hc h
    obtain ⟨s, t⟩ := c
    simp only [runCalls, Option.bind_eq_bind, Option.bind_eq_some, Option.pure_def,
      Option.some.injEq] at h
    obtain ⟨⟨r₁, e⟩, h₁, ⟨r₂, es'⟩, h₂, he⟩ := h
    obtain ⟨rfl, rfl⟩ := Prod.mk.inj he
    obtain ⟨hc₁, hk₁, hmono₁⟩ := call_spec hc h₁
    obtain ⟨hc₂, hlen, hcalls, hmono₂⟩ := ih hc₁ h₂
    refine ⟨hc₂, by simp [hlen], ?_, fun k e' hk => hmono₂ k e' (hmono₁ k e' hk)⟩
    rintro c (_ | ⟨_, hc'⟩)
    · exact hmono₂ _ _ hk₁
    · exact hcalls c hc'

/-- Over every run of calls from a consistent register, each call returns an edge whose end nodes
hash like the requested pair, and two calls return the same edge exactly when their pairs hash
the same. -/
theorem runCalls_keyed_by_hash {r r' : EdgeRegister} {calls : List (Nat × Nat)} {es : List Nat}
    (hc : Consistent hash addr r) (h : runCalls hash addr r calls = some (r', es)) :
    ∀ c ∈ calls.zip es, ∀ c' ∈ calls.zip es,
      (∃ x, r'.graph.edge? c.2 = some x ∧
        hash (addr x.source) (addr x.target) = hash (addr c.1.1) (addr c.1.2)) ∧
      (c.2 = c'.2 ↔ hash (addr c.1.1) (addr c.1.2) = hash (addr c'.1.1) (addr c'.1.2)) := by
  obtain ⟨hc', -, hcalls, -⟩ := runCalls_spec hc h
  intro c hmem c' hmem'
  have hk := hcalls c hmem
  have hk' := hcalls c' hmem'
  obtain ⟨x, hx, hxk⟩ := hc' _ _ hk
  refine ⟨⟨x, hx, hxk⟩, fun he => ?_, fun hkk => ?_⟩
  · obtain ⟨x', hx', hxk'⟩ := hc' _ _ hk'
    rw [← he, hx] at hx'
    rw [← hxk, ← hxk', Option.some.inj hx']
  · rw [hkk, hk'] at hk
    exact (Option.some.inj hk).symm

end Keyed

/-- Three nodes at addresses `0x1000`, `0x2000` and `0x1_0000_2000`, in a graph without edges. -/
def threeNodes : Graph := ⟨[some ⟨none, none⟩, some ⟨none, none⟩, some ⟨none, none⟩], []⟩

/-- The addresses of `threeNodes`. -/
def threeAddrs (n : Nat) : BitVec 64 := [0x1000#64, 0x2000#64, 0x100002000#64].getD n 0

/-- `edges(n0, n1)` and then `edges(n0, n2)` on the register of `threeNodes` keyed by `hash`:
the edges the two calls return, and edge 0 of the graph after them. -/
def twoCalls (hash : BitVec 64 → BitVec 64 → BitVec 64) : Option (List Nat × Option Edge) :=
  (runCalls hash threeAddrs (ofGraph hash threeAddrs threeNodes) [(0, 1), (0, 2)]).map
    fun res => (res.2, res.1.graph.edge? 0)

/-- On either register both calls return edge 0, which joins `n0` and `n1`. -/
theorem edgeRegister_merges_pairs :
    twoCalls uniHash = some ([0, 0], some ⟨0, 1, none, none, none, none⟩) ∧
      twoCalls biHash = some ([0, 0], some ⟨0, 1, none, none, none, none⟩) := by
  decide

end EdgeRegister

end Ladybirds
