import Mathlib.Data.List.Nodup
import Ladybirds.MetaKernelSeq

/-! # Resolution computes reaching definitions

Each cell an argument reads is covered by exactly one dependency into its interface, from the last
earlier argument that wrote the cell, or from the meta-kernel's input. Along the operations each
variable's division represents the labelling of its cells by their reaching definition.
-/

namespace Ladybirds.MetaKernelSeq

open SpaceDivision

/-- An anchor's index translated back to cells of a variable: dimension `rd[j]` of the reference
`ref` takes range `j` of the index, moved to the origin of `ref`; every other dimension keeps its
range in `ref`. -/
def relToAbs (rel ref : Space) (rd : List Nat) : Space :=
  ref.mapIdx fun i r => (((rd.zip rel).lookup i).map (·.displace r.lo)).getD r

/-- The writes before operation `k`, in program order: the arguments whose callee packet is not
`in`, by operation and then by position. -/
def writes (s : MetaKernelSeq) (k : Nat) : List (Nat × Item) :=
  (List.range k).flatMap fun k' =>
    (((s.items k').getD []).filter fun it => it.demand.access ≠ .in).map (k', ·)

/-- The most recent write of cell `x` of variable `v` before operation `k`. -/
def lastWrite (s : MetaKernelSeq) (k : Nat) (v : Var) (x : List Int) : Option (Nat × Item) :=
  ((s.writes k).filter fun w => w.2.arg.var = v ∧ Space.Mem w.2.arg.indices x).getLast?

/-- The definition of cell `x` of `v` that operation `k` reads. -/
def reachingDef (s : MetaKernelSeq) (k : Nat) (v : Var) (x : List Int) : Option DefSite :=
  match s.lastWrite k v x with
  | some (k', it) => some (.arg k' it.j)
  | none => s.initialDef v

/-- A dependency into argument `it` of operation `k` whose `To` index, translated back, holds
cell `x`. -/
def coversRead (k : Nat) (it : Item) (x : List Int) (d : Dependency) : Bool :=
  d.toAnchor.iface = .task k it.j && Space.Mem (relToAbs d.toAnchor.index it.arg.indices it.rd) x

/-- The source of a read of cell `x` of `v` at operation `k`: the interface of the most recent
write of `x`, with a `From` index that holds `x` once translated back through that argument; or,
where no earlier operation wrote `x`, the `Inputs` interface of `v`, an `in` or `inout` packet. -/
def FromReachingDef (s : MetaKernelSeq) (k : Nat) (v : Var) (x : List Int) (d : Dependency) :
    Prop :=
  match s.lastWrite k v x with
  | some (k', w) => d.fromAnchor.iface = .task k' w.j ∧
      Space.Mem (relToAbs d.fromAnchor.index w.arg.indices w.rd) x
  | none => ∃ i p, v = .packet i ∧ s.packets[i]? = some p ∧ p.access ≠ .out ∧
      d.fromAnchor.iface = .inputs i ∧
      Space.Mem (relToAbs d.fromAnchor.index (Space.ofDims p.sizes) (List.range p.dims.length)) x

section Lookup

variable {α β : Type} [BEq α] [LawfulBEq α] {a : α}

theorem lookup_zip_eq_some {b : β} : ∀ {l : List α} {m : List β}, (l.zip m).lookup a = some b →
    ∃ j : Nat, l[j]? = some a ∧ m[j]? = some b
  | [], _, h => by simp at h
  | _ :: _, [], h => by simp at h
  | c :: l, d :: m, h => by
    rw [List.zip_cons_cons, List.lookup_cons] at h
    split at h
    · rename_i hac
      exact ⟨0, by simp [beq_iff_eq.1 hac], by simpa using h⟩
    · obtain ⟨j, h1, h2⟩ := lookup_zip_eq_some h
      exact ⟨j + 1, by simpa using h1, by simpa using h2⟩

theorem lookup_zip_eq_none : ∀ {l : List α} {m : List β}, (l.zip m).lookup a = none →
    ∀ j : Nat, l[j]? = some a → m[j]? = none
  | [], _, _, j, hj => by simp at hj
  | _ :: _, [], _, j, _ => by simp
  | c :: l, d :: m, h, j, hj => by
    rw [List.zip_cons_cons, List.lookup_cons] at h
    split at h
    · cases h
    · rename_i hac
      cases j with
      | zero =>
        simp only [List.getElem?_cons_zero, Option.some.injEq] at hj
        simp [hj] at hac
      | succ j => simpa using lookup_zip_eq_none h j (by simpa using hj)

end Lookup

section Translate

variable {sec ref rel : Space} {rd : List Nat}

theorem getElem?_relToAbs {i : Nat} : (relToAbs rel ref rd)[i]? =
    ref[i]?.map fun r => (((rd.zip rel).lookup i).map (·.displace r.lo)).getD r := by
  simp [relToAbs]

@[simp] theorem length_relToAbs : (relToAbs rel ref rd).length = ref.length := by
  simp [relToAbs]

/-- A relevant dimension of the translated index is the section's range, moved to the origin of
the reference. -/
theorem lookup_indicesAbsToRel (h : indicesAbsToRel sec ref rd = some rel) {i : Nat} {q : Range}
    (hq : (rd.zip rel).lookup i = some q) :
    ∃ a r, sec[i]? = some a ∧ ref[i]? = some r ∧ q = a.displace (-r.lo) := by
  obtain ⟨j, hj, hq⟩ := lookup_zip_eq_some hq
  have hm := getElem?_mapM h j
  rw [hq, hj, Option.some_bind, eq_comm] at hm
  simp only [Option.bind_eq_bind, Option.bind_eq_some, Option.pure_def, Option.some.injEq] at hm
  obtain ⟨a, ha, r, hr, rfl⟩ := hm
  exact ⟨a, r, ha, hr, rfl⟩

/-- The translated index misses only dimensions that are not relevant. -/
theorem not_mem_of_lookup_eq_none (h : indicesAbsToRel sec ref rd = some rel) {i : Nat}
    (hl : (rd.zip rel).lookup i = none) {a r : Range} (ha : sec[i]? = some a)
    (hr : ref[i]? = some r) : i ∉ rd := fun hi => by
  obtain ⟨j, hj⟩ := List.mem_iff_getElem?.1 hi
  have hm := getElem?_mapM h j
  rw [lookup_zip_eq_none hl j hj, hj, Option.some_bind] at hm
  simp [ha, hr] at hm

/-- Translated back, the index of a section holds every cell of the section that the reference
holds. -/
theorem mem_relToAbs_of_mem (h : indicesAbsToRel sec ref rd = some rel) {x : List Int}
    (hs : Space.Mem sec x) (hr : Space.Mem ref x) : Space.Mem (relToAbs rel ref rd) x := by
  rw [Space.mem_iff_getElem?] at hs hr ⊢
  refine ⟨by simp [hr.1], fun i q xi hq hxi => ?_⟩
  rw [getElem?_relToAbs] at hq
  obtain ⟨r, hri, rfl⟩ := Option.map_eq_some'.1 hq
  cases hl : (rd.zip rel).lookup i with
  | none => simpa [hl] using hr.2 i r xi hri hxi
  | some q =>
    obtain ⟨a, r', ha, hr', rfl⟩ := lookup_indicesAbsToRel h hl
    rw [hri, Option.some.injEq] at hr'
    subst hr'
    simpa [hl] using hs.2 i a xi ha hxi

/-- For a non-empty section of the argument's indices, the translated-back index holds exactly
the section's cells, since every dimension the callee does not see is a single cell. -/
theorem mem_relToAbs_iff (h : indicesAbsToRel sec ref rd = some rel)
    (hsub : ∀ z, Space.Mem sec z → Space.Mem ref z) {y : List Int} (hy : Space.Mem sec y)
    (hone : ∀ i r, ref[i]? = some r → i ∉ rd → r.size = 1) {x : List Int} :
    Space.Mem (relToAbs rel ref rd) x ↔ Space.Mem sec x := by
  refine ⟨fun hx => ?_, fun hx => mem_relToAbs_of_mem h hx (hsub x hx)⟩
  have hy' := Space.mem_iff_getElem?.1 (hsub y hy)
  rw [Space.mem_iff_getElem?] at hx hy ⊢
  have hlen : sec.length = ref.length := by omega
  refine ⟨by simp only [length_relToAbs] at hx; omega, fun i a xi ha hxi => ?_⟩
  have hi : i < ref.length := hlen ▸ (List.getElem?_eq_some_iff.1 ha).1
  obtain ⟨r, hri⟩ : ∃ r, ref[i]? = some r := ⟨_, List.getElem?_eq_getElem hi⟩
  have hxr := hx.2 i _ xi (by rw [getElem?_relToAbs, hri]; rfl) hxi
  cases hl : (rd.zip rel).lookup i with
  | some q =>
    obtain ⟨a', r', ha', hr', rfl⟩ := lookup_indicesAbsToRel h hl
    rw [ha, Option.some.injEq] at ha'
    rw [hri, Option.some.injEq] at hr'
    subst ha' hr'
    simpa [hl] using hxr
  | none =>
    simp only [hl, Option.map_none', Option.getD_none] at hxr
    have hsz := hone i r hri (not_mem_of_lookup_eq_none h hl ha hri)
    obtain ⟨yi, hyi⟩ : ∃ yi, y[i]? = some yi :=
      ⟨_, List.getElem?_eq_getElem (by omega)⟩
    have h1 := hy.2 i a yi ha hyi
    have h2 := hy'.2 i r yi hri hyi
    simp only [Range.size, Range.mem_def] at hsz h2 hxr
    obtain rfl : xi = yi := by omega
    exact h1

end Translate

section Flatten

variable {σ β γ : Type} {f : σ → Option (List β × γ)} {p : β → Bool}

/-- Filtering what a `mapM` produced keeps the part of the one element whose output can pass. -/
theorem filter_flatten_mapM : ∀ {l : List σ} {rs : List (List β × γ)}, l.mapM f = some rs →
    l.Nodup → ∀ {a : σ} {ra : List β × γ}, a ∈ l → f a = some ra →
    (∀ c ∈ l, c ≠ a → ∀ r, f c = some r → ∀ y ∈ r.1, p y = false) →
    ((rs.map (·.1)).flatten).filter p = ra.1.filter p
  | [], _, _, _, _, _, ha, _, _ => absurd ha (List.not_mem_nil _)
  | b :: l, rs, h, hnd, a, ra, ha, hfa, hother => by
    obtain ⟨rb, rs', hb, hrs, rfl⟩ := mapM_cons_eq_some.1 h
    obtain ⟨hbl, hnd⟩ := List.nodup_cons.1 hnd
    simp only [List.map_cons, List.flatten_cons, List.filter_append]
    rcases List.mem_cons.1 ha with rfl | ha
    · obtain rfl := Option.some.inj (hb.symm.trans hfa)
      suffices ((rs'.map (·.1)).flatten).filter p = [] by rw [this, List.append_nil]
      refine List.filter_eq_nil_iff.2 fun y hy => ?_
      simp only [List.mem_flatten, List.mem_map] at hy
      obtain ⟨_, ⟨r, hr, rfl⟩, hy⟩ := hy
      obtain ⟨c, hc, hfc⟩ := exists_of_mem_mapM_result hrs r hr
      simp [hother c (List.mem_cons_of_mem _ hc) (fun e => hbl (e ▸ hc)) r hfc y hy]
    · rw [filter_flatten_mapM hrs hnd ha hfa fun c hc => hother c (List.mem_cons_of_mem _ hc)]
      suffices rb.1.filter p = [] by rw [this, List.nil_append]
      refine List.filter_eq_nil_iff.2 fun y hy => ?_
      simp [hother b (List.mem_cons_self _ _) (fun e => hbl (e ▸ ha)) rb hb y hy]

end Flatten

theorem readArg_iface {s : MetaKernelSeq} {k j : Nat} {a : Argument} {rd : List Nat}
    {d : SpaceDivision (Option DefSite)} {r : List Dependency × List ResolveError}
    (h : s.readArg k j a rd d = some r) : ∀ dep ∈ r.1, dep.toAnchor.iface = .task k j := by
  obtain ⟨rs, hrs, rfl⟩ := readArg_eq_some h
  intro dep hdep
  simp only [List.mem_flatten, List.mem_map] at hdep
  obtain ⟨_, ⟨r, hr, rfl⟩, hdep⟩ := hdep
  obtain ⟨sec, -, hsec⟩ := exists_of_mem_mapM_result hrs r hr
  rcases readSection_eq_some hsec with ⟨-, rfl⟩ | ⟨_, _, _, _, -, -, -, -, rfl⟩
  · simp at hdep
  · rw [List.mem_singleton.1 hdep]

/-- A read without errors of a well-formed division gives, for each cell `x` of the argument,
exactly one dependency whose `To` index holds `x`, and it comes from the writer of `x`'s
label. -/
theorem readArg_covers {s : MetaKernelSeq} {k : Nat} {it : Item} {F : Space}
    {d : SpaceDivision (Option DefSite)} {lab : List Int → Option DefSite} {ds : List Dependency}
    (hl : it.arg.indices.length = F.length)
    (hone : ∀ i r, it.arg.indices[i]? = some r → i ∉ it.rd → r.size = 1)
    (hw : Wf F d) (hrep : Represents F d fun x => some (lab x))
    (hr : s.readArg k it.j it.arg it.rd d = some (ds, [])) {x : List Int}
    (hx : Space.Mem it.arg.indices x) (hxF : Space.Mem F x)
    (hwx : ∀ site w, lab x = some site → s.writer site = some w → Space.Mem w.1 x) :
    ∃ dep, ds.filter (coversRead k it x) = [dep] ∧ ∃ site w, lab x = some site ∧
      s.writer site = some w ∧ dep.fromAnchor.iface = w.2.2 ∧
      Space.Mem (relToAbs dep.fromAnchor.index w.1 w.2.1) x := by
  obtain ⟨rs, hrs, heq⟩ := readArg_eq_some hr
  simp only [Prod.mk.injEq] at heq
  obtain ⟨rfl, he⟩ := heq
  have hws := hw.subDivision hl
  obtain ⟨t, ht, hxt⟩ := (hw.covers_subDivision hl x (lab x)).2 ⟨(hrep x _).2 ⟨hxF, rfl⟩, hx⟩
  obtain ⟨r0, hr0, hf0⟩ := exists_of_mem_mapM hrs _ ht
  rcases readSection_eq_some hf0 with ⟨-, rfl⟩ | ⟨site, w, fi, ti, hsite, hw', hfi, hti, rfl⟩
  · have := List.flatten_eq_nil_iff.1 he.symm _ (List.mem_map_of_mem _ hr0)
    simp at this
  refine ⟨⟨⟨w.2.2, fi⟩, ⟨.task k it.j, ti⟩⟩, ?_, site, w, hsite, hw', rfl,
    mem_relToAbs_of_mem hfi hxt (hwx site w hsite hw')⟩
  rw [filter_flatten_mapM hrs hws.nodup ht hf0 fun c hc hne r hfc y hy => ?_]
  · simp [coversRead, mem_relToAbs_of_mem hti hxt hx]
  rcases readSection_eq_some hfc with ⟨-, rfl⟩ | ⟨_, _, _, ti', -, -, -, hti', rfl⟩
  · simp at hy
  rw [List.mem_singleton.1 hy]
  obtain ⟨z, hz⟩ := Space.exists_mem_of_isEmpty_false (hws.nonempty c hc)
  have hxc : ¬ Space.Mem c.2 x := hws.disjoint_of_ne ht hc (Ne.symm hne) x hxt
  simp [coversRead, mem_relToAbs_iff hti' (hws.inside c hc) hz hone, hxc]

section Writes

variable {s : MetaKernelSeq}

theorem mem_writes {n k : Nat} {it : Item} (h : (k, it) ∈ s.writes n) :
    k < n ∧ ∃ its, s.items k = some its ∧ it ∈ its := by
  simp only [writes, List.mem_flatMap, List.mem_range, List.mem_map, List.mem_filter,
    Prod.mk.injEq] at h
  obtain ⟨k, hk, it, ⟨hit, -⟩, rfl, rfl⟩ := h
  cases hits : s.items k with
  | none => simp [hits] at hit
  | some its => exact ⟨hk, its, rfl, by simpa [hits] using hit⟩

theorem writes_succ {k : Nat} {its : List Item} (h : s.items k = some its) :
    s.writes (k + 1) = s.writes k ++ (its.filter fun it => it.demand.access ≠ .in).map (k, ·) := by
  simp [writes, List.range_succ, h]

theorem reachingDef_zero (v : Var) (x : List Int) : s.reachingDef 0 v x = s.initialDef v := by
  simp [reachingDef, lastWrite, writes]

/-- The writes of operation `k` shadow the earlier ones, the last one first. -/
theorem reachingDef_succ {k : Nat} {its : List Item} (h : s.items k = some its) (v : Var)
    (x : List Int) : s.reachingDef (k + 1) v x =
      match (its.filter fun it => it.demand.access ≠ .in ∧ it.arg.var = v ∧
        Space.Mem it.arg.indices x).getLast? with
      | some it => some (.arg k it.j)
      | none => s.reachingDef k v x := by
  have hl : s.lastWrite (k + 1) v x = ((its.filter fun it => it.demand.access ≠ .in ∧
      it.arg.var = v ∧ Space.Mem it.arg.indices x).getLast?.map (k, ·)).or (s.lastWrite k v x) := by
    simp only [lastWrite, writes_succ h, List.filter_append, List.filter_map, List.filter_filter,
      List.getLast?_append, List.getLast?_map, Function.comp_def, Bool.decide_and, Bool.and_comm,
      Bool.and_left_comm]
  rw [reachingDef, hl]
  cases (its.filter fun it => it.demand.access ≠ .in ∧ it.arg.var = v ∧
    Space.Mem it.arg.indices x).getLast? <;> rfl

/-- The writer of the definition a read sees holds the cell, and a dependency from it is the one
the specification names. -/
theorem writer_reachingDef {n : Nat} {v : Var} {x : List Int} {site : DefSite}
    {w : Space × List Nat × Iface} (hs : s.reachingDef n v x = some site)
    (hw : s.writer site = some w) :
    (Space.Mem (s.fullSpace v) x → Space.Mem w.1 x) ∧ ∀ dep : Dependency,
      dep.fromAnchor.iface = w.2.2 → Space.Mem (relToAbs dep.fromAnchor.index w.1 w.2.1) x →
      s.FromReachingDef n v x dep := by
  unfold reachingDef at hs
  unfold FromReachingDef
  split at hs
  · rename_i k it hl
    cases hs
    obtain ⟨hmem, hcell⟩ := List.mem_filter.1 (List.mem_of_getLast?_eq_some hl)
    obtain ⟨-, its, hits, hit⟩ := mem_writes hmem
    rw [writer_arg hits hit, Option.some.injEq] at hw
    subst hw
    simp only [decide_eq_true_eq] at hcell
    exact ⟨fun _ => hcell.2, fun dep hi hm => ⟨hi, hm⟩⟩
  · rename_i hl
    unfold initialDef at hs
    split at hs
    · cases hs
    rename_i i
    split at hs
    · rename_i p hp
      split_ifs at hs with hout
      cases hs
      rw [writer_input hp, Option.some.injEq] at hw
      subst hw
      exact ⟨fun hx => by simpa [fullSpace, varPacket, hp] using hx,
        fun dep hi hm => ⟨i, p, rfl, hp, hout, hi, hm⟩⟩
    · cases hs

end Writes

section Write

variable {F : Var → Space} {k : Nat} {g : Var → List Int → Option DefSite}

/-- One pass of the outputs loop: the argument's cells of its variable get its definition. -/
theorem writeItem_spec {defs : Var → SpaceDivision (Option DefSite)} {it : Item}
    (hl : it.arg.indices.length = (F it.arg.var).length)
    (hinv : ∀ v, Wf (F v) (defs v) ∧ Represents (F v) (defs v) fun x => some (g v x)) (v : Var) :
    Wf (F v) (writeItem k defs it v) ∧ Represents (F v) (writeItem k defs it v) fun x =>
      some (if it.demand.access ≠ .in ∧ it.arg.var = v ∧ Space.Mem it.arg.indices x
        then some (.arg k it.j) else g v x) := by
  by_cases hin : it.demand.access = .in
  · simpa [writeItem, hin] using hinv v
  simp only [writeItem, hin, if_false, writeArg]
  by_cases hv : v = it.arg.var
  · subst hv
    obtain ⟨hw, hr⟩ := hinv it.arg.var
    rw [Function.update_same]
    refine ⟨hw.assignSection hl _, (hr.assignSection hw hl _).congr fun x _ => ?_⟩
    by_cases hx : Space.Mem it.arg.indices x <;> simp [hx, hin]
  · rw [Function.update_noteq hv]
    exact ⟨(hinv v).1, (hinv v).2.congr fun x _ => by simp [Ne.symm hv]⟩

/-- The whole outputs loop of an operation: each cell gets the definition of the last argument
that writes it. -/
theorem foldl_writeItem_spec {defs : Var → SpaceDivision (Option DefSite)}
    (hinv : ∀ v, Wf (F v) (defs v) ∧ Represents (F v) (defs v) fun x => some (g v x)) :
    ∀ L : List Item, (∀ it ∈ L, it.arg.indices.length = (F it.arg.var).length) → ∀ v,
      Wf (F v) (L.foldl (writeItem k) defs v) ∧ Represents (F v) (L.foldl (writeItem k) defs v)
        fun x => some (match (L.filter fun it => it.demand.access ≠ .in ∧ it.arg.var = v ∧
          Space.Mem it.arg.indices x).getLast? with
        | some it => some (.arg k it.j)
        | none => g v x) := by
  intro L
  induction L using List.reverseRecOn with
  | nil => simpa using hinv
  | append_singleton L a ih =>
    intro hl v
    rw [List.foldl_append, List.foldl_cons, List.foldl_nil]
    have h1 := writeItem_spec (k := k) (hl a (by simp)) (ih fun it hit => hl it (by simp [hit])) v
    refine ⟨h1.1, h1.2.congr fun x _ => ?_⟩
    by_cases ha : a.demand.access ≠ .in ∧ a.arg.var = v ∧ Space.Mem a.arg.indices x <;>
      simp [ha, List.filter_append, List.filter_cons]

end Write

/-- What the loop over the operations keeps after the first `n` of them: each variable's division
stands for the reaching definitions, every dependency so far goes into one of those operations,
and, while there is no error, each of their reads has the dependencies the specification asks. -/
structure Inv (s : MetaKernelSeq) (n : Nat) (st : State) : Prop where
  wf : ∀ v, Wf (s.fullSpace v) (st.defs v)
  represents : ∀ v, Represents (s.fullSpace v) (st.defs v) fun x => some (s.reachingDef n v x)
  deps_before : ∀ d ∈ st.deps, ∃ k < n, ∃ j, d.toAnchor.iface = .task k j
  reads : st.errors = [] → ∀ k < n, ∀ its, s.items k = some its → ∀ it ∈ its,
    it.demand.access ≠ .out → ∀ x, Space.Mem it.arg.indices x →
    ∃ dep, st.deps.filter (coversRead k it x) = [dep] ∧ s.FromReachingDef k it.arg.var x dep

theorem inv_initState (s : MetaKernelSeq) : Inv s 0 s.initState where
  wf _ := (wf_empty _).assignSection rfl _
  represents v := ((represents_empty _).assignSection (wf_empty _) rfl _).congr fun x hx => by
    simp [hx, reachingDef_zero]
  deps_before d hd := by simp [initState] at hd
  reads _ k hk := absurd hk (Nat.not_lt_zero k)

/-- The reads of an operation only make dependencies into its own interfaces. -/
theorem readItem_iface {s : MetaKernelSeq} {k : Nat} {defs : Var → SpaceDivision (Option DefSite)}
    {it : Item} {r : List Dependency × List ResolveError} (h : s.readItem k defs it = some r) :
    ∀ d ∈ r.1, d.toAnchor.iface = .task k it.j := by
  unfold readItem at h
  split_ifs at h
  · simp [← Option.some.inj h]
  · exact readArg_iface h

/-- One pass of the loop keeps the invariant. -/
theorem Inv.step {s : MetaKernelSeq} (hv : ∀ c ∈ s.operations, c.isValid s.varPacket) {n : Nat}
    {st st' : State} (hi : Inv s n st) (h : s.step n st = some st') : Inv s (n + 1) st' := by
  obtain ⟨its, reads, hits, hreads, rfl⟩ := step_eq_some h
  have hval := items_valid hits hv
  have hdefs := foldl_writeItem_spec (k := n) (fun v => ⟨hi.wf v, hi.represents v⟩) its
    fun it hit => (hval it hit).dims
  have hnew : ∀ d ∈ (reads.map (·.1)).flatten, ∃ j, d.toAnchor.iface = .task n j := by
    intro d hd
    simp only [List.mem_flatten, List.mem_map] at hd
    obtain ⟨_, ⟨r, hr, rfl⟩, hd⟩ := hd
    obtain ⟨it, -, hit⟩ := exists_of_mem_mapM_result hreads r hr
    exact ⟨it.j, readItem_iface hit d hd⟩
  refine ⟨fun v => (hdefs v).1, fun v => (hdefs v).2.congr fun x _ => by
    rw [reachingDef_succ hits], fun d hd => ?_, fun he k hk its' hits' it hit hout x hx => ?_⟩
  · rcases List.mem_append.1 hd with hd | hd
    · obtain ⟨k, hk, j, hj⟩ := hi.deps_before d hd
      exact ⟨k, by omega, j, hj⟩
    · obtain ⟨j, hj⟩ := hnew d hd
      exact ⟨n, by omega, j, hj⟩
  rw [List.append_eq_nil] at he
  simp only [List.filter_append]
  rcases Nat.lt_succ_iff_lt_or_eq.1 hk with hk | rfl
  · obtain ⟨dep, hf, hfrom⟩ := hi.reads he.1 k hk its' hits' it hit hout x hx
    refine ⟨dep, ?_, hfrom⟩
    rw [hf, List.filter_eq_nil_iff.2 fun d hd => ?_, List.append_nil]
    obtain ⟨j, hj⟩ := hnew d hd
    simp only [coversRead, hj, Iface.task.injEq, Bool.and_eq_true, decide_eq_true_eq, not_and]
    omega
  obtain rfl : its = its' := Option.some.inj (hits.symm.trans hits')
  have hold : st.deps.filter (coversRead k it x) = [] := List.filter_eq_nil_iff.2 fun d hd => by
    obtain ⟨k', hk', j, hj⟩ := hi.deps_before d hd
    simp only [coversRead, hj, Iface.task.injEq, Bool.and_eq_true, decide_eq_true_eq, not_and]
    omega
  obtain ⟨⟨ds, es⟩, hr, hfr⟩ := exists_of_mem_mapM hreads it hit
  obtain rfl : es = [] := List.flatten_eq_nil_iff.1 he.2 _ (List.mem_map_of_mem _ hr)
  have hread := hfr
  simp only [readItem, hout, if_false] at hread
  have hvi := hval it hit
  obtain ⟨dep, hf, site, w, hsite, hw, hif, hmem⟩ := readArg_covers hvi.dims hvi.collapsed
    (hi.wf _) (hi.represents _) hread hx (hvi.inside x hx)
    fun site w hs hw => (writer_reachingDef hs hw).1 (hvi.inside x hx)
  refine ⟨dep, ?_, (writer_reachingDef hsite hw).2 dep hif hmem⟩
  have hmap : (its.map (·.j)).Nodup := List.pairwise_map.2 (items_pairwise hits)
  rw [hold, List.nil_append, filter_flatten_mapM hreads (List.Nodup.of_map _ hmap) hit hfr
    fun c hc hne r hfc y hy => ?_, hf]
  have hj : c.j ≠ it.j := fun e => hne (List.inj_on_of_nodup_map hmap hc hit e)
  simp [coversRead, readItem_iface hfc y hy, hj]

/-- Every prefix of the loop over the operations keeps the invariant. -/
theorem inv_foldlM {s : MetaKernelSeq} (hv : ∀ c ∈ s.operations, c.isValid s.varPacket) :
    ∀ (n : Nat) (st : State),
      (List.range n).foldlM (fun st k => s.step k st) s.initState = some st → Inv s n st
  | 0, st, h => by
    simp only [List.range_zero, List.foldlM_nil, Option.pure_def, Option.some.injEq] at h
    exact h ▸ inv_initState s
  | n + 1, st, h => by
    rw [List.range_succ, List.foldlM_append] at h
    obtain ⟨st0, h0, h1⟩ := Option.bind_eq_some.1 h
    simp only [List.foldlM_cons, List.foldlM_nil, Option.bind_eq_bind, Option.bind_eq_some,
      Option.pure_def, Option.some.injEq] at h1
    obtain ⟨st1, h1, rfl⟩ := h1
    exact (inv_foldlM hv n st0 h0).step hv h1

/-- Dataflow resolution computes reaching definitions: when `TranslateToMetaKernel` succeeds,
every cell read by an argument of an operation is covered by exactly one dependency into that
argument's interface, and it comes from the most recent earlier write of the cell, or from the
meta-kernel's input. -/
theorem translateToMetaKernel_reads_reachingDef {s : MetaKernelSeq} {deps : List Dependency}
    {errs : List ResolveError} (h : s.translateToMetaKernel = some (true, deps, errs)) {k : Nat}
    {its : List Item} (hk : s.items k = some its) {it : Item} (hit : it ∈ its)
    (hout : it.demand.access ≠ .out) {x : List Int} (hx : Space.Mem it.arg.indices x) :
    ∃ dep, deps.filter (coversRead k it x) = [dep] ∧ s.FromReachingDef k it.arg.var x dep := by
  obtain ⟨hv, st, st', hrun, hfin, he, rfl⟩ := translateToMetaKernel_eq_true h
  obtain ⟨ds, es, rfl, hds⟩ := finish_eq_some hfin
  obtain ⟨c, -, hc, -, -⟩ := items_eq_some.1 hk
  obtain ⟨dep, hf, hfrom⟩ := (inv_foldlM hv _ _ hrun).reads (List.append_eq_nil.1 he).1 k
    (List.getElem?_eq_some_iff.1 hc).1 its hk it hit hout x hx
  refine ⟨dep, ?_, hfrom⟩
  rw [List.filter_append, hf, List.filter_eq_nil_iff.2 fun d hd => ?_, List.append_nil]
  obtain ⟨i, hi⟩ := hds d hd
  simp [coversRead, hi]

/-- Two calls of a two-element copy kernel fill the halves of temporary 0 from input packet 0,
then a four-element copy kernel copies the temporary to output packet 1. -/
def copyHalves : MetaKernelSeq :=
  let copy (n : Int) : List Packet := [⟨[n], .in, 4⟩, ⟨[n], .out, 4⟩]
  ⟨[⟨[4], .in, 4⟩, ⟨[4], .out, 4⟩], [⟨[4], .inout, 4⟩],
    [⟨0, copy 2, [⟨.packet 0, [.beginCount 0 2]⟩, ⟨.temp 0, [.beginCount 0 2]⟩], [], []⟩,
     ⟨0, copy 2, [⟨.packet 0, [.beginCount 2 2]⟩, ⟨.temp 0, [.beginCount 2 2]⟩], [], []⟩,
     ⟨1, copy 4, [⟨.temp 0, []⟩, ⟨.packet 1, []⟩], [], []⟩]⟩

/-- The last call reads cell 3 of the temporary from the second half-copy. -/
theorem copyHalves_reads_second_half :
    ∃ dep, ((copyHalves.translateToMetaKernel.map (·.2.1)).getD []).filter
        (coversRead 2 ⟨0, ⟨.temp 0, [.beginCount 0 4], [4], []⟩, ⟨[4], .in, 4⟩, [0]⟩ [3]) = [dep] ∧
      copyHalves.FromReachingDef 2 (.temp 0) [3] dep :=
  @translateToMetaKernel_reads_reachingDef copyHalves _ [] (by decide) 2
    ((copyHalves.items 2).getD []) (by decide) _ (by decide) (by decide) [3] (by decide)

end Ladybirds.MetaKernelSeq
