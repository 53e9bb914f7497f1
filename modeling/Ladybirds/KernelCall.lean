import Mathlib.Data.List.Forall2
import Ladybirds.MetaKernelSeq

/-! # Matching arguments to the callee's packets

The block-size check of `KernelCall` walks the ranges of an argument right to left, matching each
dimension of the callee's packet to the next range of its size over ranges of a single index. With
positive derived parameters, as the parser makes them, the walk succeeds exactly when the ranges
admit a dimension map (`Relevant`), and the positions it keeps as `RelevantDims_` are one.
-/

namespace Ladybirds

namespace MetaKernelSeq

/-- What the relevant dimensions `rd` of an argument with indices `ref` are to an interface with
dimensions `dims`: increasing, of the interface's sizes, and every other dimension a single
cell. -/
structure Relevant (ref : Space) (rd : List Nat) (dims : List Int) : Prop where
  sorted : rd.Pairwise (· < ·)
  sizes : List.Forall₂ (fun p d => ∃ r, ref[p]? = some r ∧ r.size = d) rd dims
  collapsed : ∀ p r, ref[p]? = some r → p ∉ rd → r.size = 1

theorem Relevant.lt_length {ref : Space} {rd : List Nat} {dims : List Int}
    (hr : Relevant ref rd dims) : ∀ p ∈ rd, p < ref.length := by
  have hs := hr.sizes
  clear hr
  induction hs with
  | nil => simp
  | cons h _ ih =>
    intro q hq
    rcases List.mem_cons.1 hq with rfl | hq
    · obtain ⟨r, hr', -⟩ := h
      exact (List.getElem?_eq_some_iff.1 hr').1
    · exact ih q hq

namespace KernelCall

theorem findDim_getElem? {sizes : List Int} {d : Int} : ∀ {p q : Nat},
    findDim sizes d p = some q → sizes[q]? = some d
  | 0, q, h => by
    simp only [findDim] at h
    split_ifs at h with h1
    cases h
    exact h1
  | p + 1, q, h => by
    simp only [findDim] at h
    split_ifs at h with h1 h2
    · cases h
      exact h1
    · exact findDim_getElem? h

/-- For callee dimensions of sizes (not names of derived parameters), the backward loop matches
them, in order, to increasing supplied dimensions of those sizes. -/
theorem matchDims_relevant {sizes : List Int} : ∀ {ds : List Int} {s : Nat} {rd : List Nat}
    {s' : Nat}, matchDims sizes ds s = (rd, some s') → (∀ d ∈ ds, 0 ≤ d) →
    rd.Pairwise (· < ·) ∧ (∀ p ∈ rd, p < s) ∧
      List.Forall₂ (fun p d => sizes[p]? = some d) rd ds.reverse
  | [], s, rd, s', h, _ => by
    simp only [matchDims, Prod.mk.injEq] at h
    obtain ⟨rfl, -⟩ := h
    exact ⟨.nil, by simp, .nil⟩
  | d :: ds, s, rd, s', h, hd => by
    obtain ⟨p, rd', hp, hr, rfl⟩ := matchDims_cons h
    have hd0 := hd d (List.mem_cons_self _ _)
    have hfind : findDim sizes d (s - 1) = some p ∧ s ≠ 0 := by
      unfold matchDim at hp
      split_ifs at hp with hs hd1
      · omega
      · exact ⟨hp, hs⟩
    obtain ⟨hps, -⟩ := findDim_spec hfind.1
    obtain ⟨hsorted, hlt, hf⟩ := matchDims_relevant hr fun x hx => hd x (List.mem_cons_of_mem _ hx)
    refine ⟨List.pairwise_append.2 ⟨hsorted, List.pairwise_singleton _ _, fun a ha b hb => ?_⟩,
      fun q hq => ?_, ?_⟩
    · rw [List.mem_singleton.1 hb]
      exact hlt a ha
    · rcases List.mem_append.1 hq with hq | hq
      · have := hlt q hq
        omega
      · rw [List.mem_singleton.1 hq]
        omega
    · rw [List.reverse_cons]
      exact List.rel_append hf (.cons (findDim_getElem? hfind.1) .nil)

theorem relevantDims_relevant {sizes argdims : List Int} {rd : List Nat} {b : Bool}
    (h : relevantDims sizes argdims = (rd, true, b)) (hd : ∀ d ∈ argdims, 0 ≤ d) :
    rd.Pairwise (· < ·) ∧ List.Forall₂ (fun p d => sizes[p]? = some d) rd argdims := by
  obtain ⟨-, s, hm, -⟩ := relevantDims_eq_ok h
  obtain ⟨hs, -, hf⟩ := matchDims_relevant hm (by simpa using hd)
  exact ⟨hs, by simpa using hf⟩

section Derived

variable {derived : List Int}

/-- With positive derived parameters, the second lookup of the block-size check changes
nothing. -/
theorem derivedDim_bind (hpos : ∀ x ∈ derived, 0 < x) (d : Int) :
    (derivedDim derived d >>= derivedDim derived) = derivedDim derived d := by
  unfold derivedDim
  split_ifs with hd
  · cases h : derived[(-d - 1).toNat]? with
    | none => rfl
    | some v =>
      have := hpos v (List.getElem?_mem h)
      simp [show ¬ v < 0 by omega]
  · simp [hd]

theorem derivedDim_nonneg (hpos : ∀ x ∈ derived, 0 < x) {d v : Int}
    (h : derivedDim derived d = some v) : 0 ≤ v := by
  unfold derivedDim at h
  split_ifs at h with hd
  · exact Int.le_of_lt (hpos v (List.getElem?_mem h))
  · cases h
    omega

theorem argDims_eq (hpos : ∀ x ∈ derived, 0 < x) (p : Packet) :
    argDims derived p = p.dims.mapM (derivedDim derived) := by
  simp only [argDims, derivedDim_bind hpos]

theorem mapM_derivedDim_nonneg (hpos : ∀ x ∈ derived, 0 < x) {dims argdims : List Int}
    (h : dims.mapM (derivedDim derived) = some argdims) : ∀ d ∈ argdims, 0 ≤ d := fun d hd => by
  obtain ⟨d0, -, hd0⟩ := exists_of_mem_mapM_result h d hd
  exact derivedDim_nonneg hpos hd0

end Derived

/-- The `while` loop, from supplied dimension `q` down, reaches a dimension `p` of size `d` over
dimensions of size 1, or stops above it at one of size `d`. -/
theorem findDim_of_ones {sizes : List Int} {d : Int} {p : Nat} (hp : sizes[p]? = some d) :
    ∀ {q : Nat}, p ≤ q → (∀ t, p < t → t ≤ q → sizes[t]? = some 1) →
      ∃ g, findDim sizes d q = some g ∧ p ≤ g
  | 0, hpq, _ => by
    obtain rfl : p = 0 := by omega
    exact ⟨0, by simp [findDim, hp], le_refl 0⟩
  | q + 1, hpq, hone => by
    by_cases hq : sizes[q + 1]? = some d
    · exact ⟨q + 1, by simp [findDim, hq], hpq⟩
    · have hpq' : p ≤ q := by
        by_contra hc
        exact hq ((show p = q + 1 by omega) ▸ hp)
      obtain ⟨g, hg, hpg⟩ := findDim_of_ones hp hpq' fun t h1 h2 => hone t h1 (by omega)
      refine ⟨g, ?_, hpg⟩
      simp only [findDim, if_neg hq, if_pos (hone (q + 1) (by omega) le_rfl), hg]

/-- The backward loop, from `suppidx = s`, succeeds when the callee's dimensions `ds` (last
first) have sizes of supplied dimensions at decreasing positions `rs` below `s`, and every other
supplied dimension below `s` has size 1. The dimensions it leaves before the matched ones then
have size 1. -/
theorem matchDims_of_ones {sizes : List Int} {ds : List Int} {rs : List Nat}
    (hf : List.Forall₂ (fun p d => sizes[p]? = some d) rs ds) : ∀ {s : Nat},
    rs.Pairwise (· > ·) → (∀ p ∈ rs, p < s) → (∀ t < s, t ∉ rs → sizes[t]? = some 1) →
    ∃ rd s', matchDims sizes ds s = (rd, some s') ∧ ∀ t < s', sizes[t]? = some 1 := by
  induction hf with
  | nil => exact fun {s} _ _ hone => ⟨[], s, rfl, fun t ht => hone t ht (List.not_mem_nil t)⟩
  | @cons p d rs ds hp _ ih =>
    intro s hsorted hlt hone
    rw [List.pairwise_cons] at hsorted
    have hps := hlt p (List.mem_cons_self p rs)
    have habove : ∀ t, p < t → t < s → sizes[t]? = some 1 := fun t h1 h2 =>
      hone t h2 fun ht => (List.mem_cons.1 ht).elim (fun h => by omega)
        fun h => absurd (hsorted.1 t h) (by omega)
    obtain ⟨g, hg, hpg⟩ := findDim_of_ones hp (by omega : p ≤ s - 1)
      fun t h1 h2 => habove t h1 (by omega)
    have hgs := (findDim_spec hg).1
    obtain ⟨rd, s', hm, hs'⟩ := @ih g hsorted.2 (fun q hq => by have := hsorted.1 q hq; omega)
      fun t ht htr => by
        by_cases htp : t = p
        · rw [htp, hp]
          exact (findDim_getElem? hg).symm.trans (habove g (by omega) (by omega))
        · exact hone t (by omega) (by simp [htp, htr])
    refine ⟨rd ++ [g], s', ?_, hs'⟩
    simp [matchDims, matchDim, show s ≠ 0 by omega, hg, hm]

/-- The block-size check succeeds on an argument whose ranges admit a dimension map. -/
theorem relevantDims_of_relevant {ref : Space} {rd : List Nat} {argdims : List Int}
    (hr : Relevant ref rd argdims) :
    ∃ rd', relevantDims (ref.map Range.size) argdims = (rd', true, false) := by
  have hsizes : List.Forall₂ (fun p d => (ref.map Range.size)[p]? = some d) rd.reverse
      argdims.reverse :=
    List.rel_reverse (hr.sizes.imp fun p d ⟨r, h, hs⟩ => by simp [h, hs])
  obtain ⟨rd', s', hm, hs'⟩ := matchDims_of_ones hsizes (List.pairwise_reverse.2 hr.sorted)
    (fun p hp => by simpa using hr.lt_length p (List.mem_reverse.1 hp))
    fun t ht htr => by
      obtain ⟨r, hrt⟩ : ∃ r, ref[t]? = some r :=
        ⟨_, List.getElem?_eq_getElem (by simpa using ht)⟩
      simp [hrt, hr.collapsed t r hrt (by simpa using htr)]
  have hall : ((ref.map Range.size).take s').all (· = 1) = true := by
    refine List.all_eq_true.2 fun x hx => ?_
    obtain ⟨i, hi⟩ := List.mem_iff_getElem?.1 hx
    rw [List.getElem?_take] at hi
    split_ifs at hi with hlt
    rw [hs' i hlt, Option.some.injEq] at hi
    simp [← hi]
  have hlen := (matchDims_spec hm).1
  exact ⟨rd', by simp [relevantDims, hm, hall, hlen]⟩

/-- The relevant dimensions of a successful block-size check are a dimension map. -/
theorem relevant_of_relevantDims {ind : Space} {argdims : List Int} {rd : List Nat} {b : Bool}
    (h : relevantDims (ind.map Range.size) argdims = (rd, true, b)) (hd : ∀ d ∈ argdims, 0 ≤ d) :
    Relevant ind rd argdims := by
  obtain ⟨hsorted, hsizes⟩ := relevantDims_relevant h hd
  refine ⟨hsorted, hsizes.imp fun p d hp => ?_, fun p r hp hn => ?_⟩
  · rw [List.getElem?_map] at hp
    obtain ⟨r, hr, rfl⟩ := Option.map_eq_some'.1 hp
    exact ⟨r, hr, rfl⟩
  · have := relevantDims_spec h p (by simpa using (List.getElem?_eq_some_iff.1 hp).1) hn
    simpa [hp] using this

/-- What the checks of the constructor ask of argument `a`, made from a variable with packet
`supply`, for the callee's packet `demand`, whose negative dimensions name derived
parameters. -/
structure ArgumentOk (derived : List Int) (a : Argument) (supply demand : Packet) : Prop where
  valid : a.errors = []
  baseType : supply.baseSize = demand.baseSize
  accessType : ¬ (supply.access = .in ∧ demand.access ≠ .in)
  dimMap : ∃ argdims rd, demand.dims.mapM (derivedDim derived) = some argdims ∧
    Relevant a.indices rd argdims

/-- The three steps of `build` when it reports no error. -/
theorem build_eq_some {vp : Var → Option Packet} {c : KernelCall} {args : List Argument}
    {rds : List (List Nat)} (h : c.build vp = some (args, [], rds)) : ∃ args0,
      c.args.mapM (fun a => (vp a.var).map fun p => (Argument.make a.var p.sizes a.indices, p)) =
        some args0 ∧ args0.length = c.packets.length ∧ args = args0.map (·.1) ∧
      c.checkArgs 0 (List.zipWith (fun a demand => (a.1, a.2, demand)) args0 c.packets) =
        some ([], rds) := by
  simp only [build, Option.bind_eq_bind, Option.bind_eq_some] at h
  obtain ⟨args0, hargs, h⟩ := h
  split_ifs at h with hlen
  · simp at h
  simp only [Option.bind_eq_bind, Option.bind_eq_some, Option.pure_def, Option.some.injEq,
    Prod.mk.injEq] at h
  obtain ⟨-, -, w, hw, rfl, rfl⟩ := h
  exact ⟨args0, hargs, by simpa using hlen, rfl, hw⟩

section Checks

variable {vp : Var → Option Packet} {c : KernelCall} (hpos : ∀ x ∈ c.derivedParams, 0 < x)
include hpos

theorem checkArg_ok (j : Nat) {a : Argument} {supply demand : Packet}
    (h : ArgumentOk c.derivedParams a supply demand) :
    ∃ rd, c.checkArg j a supply demand = some ([], rd, false) := by
  obtain ⟨-, hb, hacc, argdims, rd, had, hrel⟩ := h
  obtain ⟨rd', hrd⟩ := relevantDims_of_relevant hrel
  refine ⟨rd', ?_⟩
  simp only [checkArg, argDims_eq hpos, had, Option.bind_eq_bind, Option.some_bind, hrd]
  simp [hb, hacc]

theorem checkArgs_ok : ∀ (j : Nat) {l : List (Argument × Packet × Packet)},
    (∀ x ∈ l, ArgumentOk c.derivedParams x.1 x.2.1 x.2.2) → ∃ rds, c.checkArgs j l = some ([], rds)
  | _, [], _ => ⟨[], rfl⟩
  | j, (a, supply, demand) :: rest, h => by
    obtain ⟨rd, hrd⟩ := checkArg_ok hpos j (h _ (List.mem_cons_self _ _))
    obtain ⟨rds, hrds⟩ := checkArgs_ok (j + 1) fun x hx => h x (List.mem_cons_of_mem _ hx)
    exact ⟨rd :: rds, by simp [checkArgs, hrd, hrds]⟩

/-- For argument `t` of a call without errors, the relevant dimensions are a dimension map of the
packet's resolved dimensions. -/
theorem build_relevant {args : List Argument} {rds : List (List Nat)}
    (hb : c.build vp = some (args, [], rds)) {t : Nat} {a : Argument} {rd : List Nat}
    {demand : Packet} (ha : args[t]? = some a) (hrd : rds[t]? = some rd)
    (hd : c.packets[t]? = some demand) : ∃ argdims,
      demand.dims.mapM (derivedDim c.derivedParams) = some argdims ∧ Relevant a.indices rd argdims := by
  obtain ⟨-, -, demand', argdims, rd', -, -, -, hd', -, -, had, hrel, hrd'⟩ := build_valid hb t a ha
  obtain rfl : demand' = demand := Option.some.inj (hd'.symm.trans hd)
  obtain rfl : rd' = rd := Option.some.inj (hrd'.symm.trans hrd)
  rw [argDims_eq hpos] at had
  exact ⟨argdims, had, relevant_of_relevantDims hrel (mapM_derivedDim_nonneg hpos had)⟩

/-- A valid call has as many arguments as packets, each valid and matching its packet. -/
theorem argumentOk_of_isValid (hv : c.isValid vp = true) :
    c.args.length = c.packets.length ∧
      ∀ (t : Nat) (ae : ArgExpr) (demand : Packet), c.args[t]? = some ae →
        c.packets[t]? = some demand → ∃ p, vp ae.var = some p ∧
          ArgumentOk c.derivedParams (Argument.make ae.var p.sizes ae.indices) p demand := by
  obtain ⟨args, rds, hb, hall⟩ := isValid_iff.1 hv
  obtain ⟨args0, hargs, hlen, rfl, -⟩ := build_eq_some hb
  refine ⟨(length_of_mapM hargs).symm.trans hlen, fun t ae demand hae hd => ?_⟩
  obtain ⟨a, ha⟩ : ∃ a, (args0.map (·.1))[t]? = some a :=
    ⟨_, List.getElem?_eq_getElem (by simpa [hlen] using (List.getElem?_eq_some_iff.1 hd).1)⟩
  obtain ⟨ae', p, demand', argdims, rd, hae', hp, rfl, hd', hbase, hacc, had, hrel, -⟩ :=
    build_valid hb t a ha
  obtain rfl : ae' = ae := Option.some.inj (hae'.symm.trans hae)
  obtain rfl : demand' = demand := Option.some.inj (hd'.symm.trans hd)
  rw [argDims_eq hpos] at had
  exact ⟨p, hp, hall _ (List.getElem?_mem ha), hbase, hacc, argdims, rd, had,
    relevant_of_relevantDims hrel (mapM_derivedDim_nonneg hpos had)⟩

/-- Arguments that each match their packet make a valid call. -/
theorem isValid_of_argumentOk (hlen : c.args.length = c.packets.length)
    (h : ∀ (t : Nat) (ae : ArgExpr) (demand : Packet), c.args[t]? = some ae →
      c.packets[t]? = some demand → ∃ p, vp ae.var = some p ∧
        ArgumentOk c.derivedParams (Argument.make ae.var p.sizes ae.indices) p demand) :
    c.isValid vp = true := by
  have hvar : ∀ ae ∈ c.args, ∃ x, ((vp ae.var).map fun p =>
      (Argument.make ae.var p.sizes ae.indices, p)) = some x := fun ae hae => by
    obtain ⟨t, ht⟩ := List.mem_iff_getElem?.1 hae
    obtain ⟨p, hp, -⟩ := h t ae _ ht (List.getElem?_eq_getElem
      (hlen ▸ (List.getElem?_eq_some_iff.1 ht).1))
    exact ⟨_, by rw [hp]; rfl⟩
  obtain ⟨args0, hargs⟩ := exists_mapM_eq_some hvar
  have hok : ∀ x ∈ List.zipWith (fun a demand => (a.1, a.2, demand)) args0 c.packets,
      ArgumentOk c.derivedParams x.1 x.2.1 x.2.2 := fun x hx => by
    obtain ⟨t, hx⟩ := List.mem_iff_getElem?.1 hx
    rw [List.getElem?_zipWith, getElem?_mapM hargs] at hx
    cases hae : c.args[t]? with
    | none => simp [hae] at hx
    | some ae =>
      cases hd : c.packets[t]? with
      | none => simp [hd] at hx
      | some demand =>
        obtain ⟨p, hp, hok⟩ := h t ae demand hae hd
        simp only [hae, hd, hp, Option.some_bind, Option.map_some', Option.some.injEq] at hx
        exact hx ▸ hok
  obtain ⟨rds, hrds⟩ := checkArgs_ok hpos 0 hok
  have hl0 : args0.length = c.packets.length := (length_of_mapM hargs).trans hlen
  have hb : c.build vp = some (args0.map (·.1), [], rds) := by
    simp only [build, hargs, Option.bind_eq_bind, Option.some_bind]
    simp [hl0, hrds]
  refine isValid_iff.2 ⟨_, _, hb, fun a ha => ?_⟩
  obtain ⟨x, hx, rfl⟩ := List.mem_map.1 ha
  obtain ⟨t, ht⟩ := List.mem_iff_getElem?.1 hx
  obtain ⟨demand, hd⟩ : ∃ d, c.packets[t]? = some d :=
    ⟨_, List.getElem?_eq_getElem (hl0 ▸ (List.getElem?_eq_some_iff.1 ht).1)⟩
  exact (hok (x.1, x.2, demand) (List.mem_iff_getElem?.2 ⟨t, by
    simp [List.getElem?_zipWith, ht, hd]⟩)).valid

end Checks

/-- With positive derived parameters, the constructor leaves a valid call exactly when there are
as many arguments as the callee has packets and each argument is valid and matches its packet in
base type, access type and block size; the relevant dimensions of each argument of a valid call
are then a dimension map. -/
theorem isValid_iff_argumentOk {vp : Var → Option Packet} {c : KernelCall}
    (hpos : ∀ x ∈ c.derivedParams, 0 < x) :
    (c.isValid vp = true ↔ c.args.length = c.packets.length ∧
      ∀ (t : Nat) (ae : ArgExpr) (demand : Packet), c.args[t]? = some ae →
        c.packets[t]? = some demand → ∃ p, vp ae.var = some p ∧
          ArgumentOk c.derivedParams (Argument.make ae.var p.sizes ae.indices) p demand) ∧
    ∀ (args : List Argument) (errs : List CallError) (rds : List (List Nat)), c.isValid vp = true →
      c.build vp = some (args, errs, rds) → ∀ (t : Nat) (a : Argument) (rd : List Nat)
        (demand : Packet), args[t]? = some a → rds[t]? = some rd → c.packets[t]? = some demand →
        ∃ argdims, demand.dims.mapM (derivedDim c.derivedParams) = some argdims ∧
          Relevant a.indices rd argdims := by
  refine ⟨⟨argumentOk_of_isValid hpos, fun ⟨hlen, h⟩ => isValid_of_argumentOk hpos hlen h⟩,
    fun args errs rds hv hb => ?_⟩
  obtain ⟨args', rds', hb', -⟩ := isValid_iff.1 hv
  rw [hb] at hb'
  simp only [Option.some.injEq, Prod.mk.injEq] at hb'
  obtain ⟨rfl, rfl, rfl⟩ := hb'
  exact fun t a rd demand ha hrd hd => build_relevant hpos hb ha hrd hd

/-- A call with derived parameter `2` passing a whole two-by-two array for a packet of
dimensions `2` (a literal) and `-1` (the derived parameter). -/
def squareCall : KernelCall := ⟨0, [⟨[2, -1], .in, 4⟩], [⟨.packet 0, []⟩], [], [2]⟩

/-- The variable of `squareCall`: a two-by-two array. -/
def squareArray : Var → Option Packet := fun _ => some ⟨[2, 2], .in, 4⟩

theorem squareCall_argumentOk : ∃ p, squareArray (.packet 0) = some p ∧
    ArgumentOk [2] (Argument.make (.packet 0) p.sizes []) p ⟨[2, -1], .in, 4⟩ :=
  ((@isValid_iff_argumentOk squareArray squareCall (by decide)).1.1 (by decide)).2 0 _ _ rfl rfl

end KernelCall

end MetaKernelSeq

end Ladybirds
