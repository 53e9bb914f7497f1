import Ladybirds.OptionTraversal
import Ladybirds.SpaceDivision

/-! # Resolving a meta-kernel body

`TranslateToMetaKernel` turns the kernel calls of a meta-kernel body into tasks and dependencies,
keeping for each variable a division of its cells by the argument that last wrote them. Errors are
kept as the data their messages are printed from.
-/

namespace Ladybirds

inductive AccessType
  | «in»
  | out
  | inout
  deriving DecidableEq, Repr

/-- The fields of `spec::Packet` the resolver reads. A negative dimension of a kernel's packet
names a derived parameter; the dimensions of the meta-kernel's own packets and temporaries are
sizes. -/
structure Packet where
  dims : List Int
  access : AccessType
  baseSize : Nat
  deriving DecidableEq, Repr

/-- The sizes `Space(GetArrayDims())` gives a variable's dimensions. -/
def Packet.sizes (p : Packet) : List Nat := p.dims.map Int.toNat

namespace MetaKernelSeq

/-- A variable of the body: a packet of the meta-kernel, or one of its temporaries. -/
inductive Var
  | packet (i : Nat)
  | temp (i : Nat)
  deriving DecidableEq, Repr

/-- An argument as written: a variable and the index ranges after it. -/
structure ArgExpr where
  var : Var
  indices : Space
  deriving DecidableEq, Repr

inductive ArgError
  | tooManyIndices
  | outOfBounds (i : Nat)
  | zeroSized (i : Nat)
  deriving DecidableEq, Repr

/-- `KernelCall::Argument` as its constructor leaves it. -/
structure Argument where
  var : Var
  indices : Space
  resultingDim : List Int
  errors : List ArgError
  deriving DecidableEq, Repr

/-- The loop of the `Argument` constructor over the dimensions, from the `i`-th (counted from 1 in
the messages) on. -/
def checkIndices : Nat → Space → List Nat → List Int × List ArgError
  | i, r :: rs, d :: ds =>
    let rest := checkIndices (i + 1) rs ds
    ((if r.size > 1 then [r.size] else []) ++ rest.1,
      (if (Range.beginCount 0 d).contains r then [] else [.outOfBounds (i + 1)]) ++
      (if r.size = 0 then [.zeroSized (i + 1)] else []) ++ rest.2)
  | _, _, _ => ([], [])

/-- `Argument(variable, indices)`: missing trailing indices select a whole dimension, surplus ones
are dropped. -/
def Argument.make (v : Var) (vdims : List Nat) (indices : Space) : Argument :=
  let tooMany := decide (indices.length > vdims.length)
  let idx := if tooMany then indices.take vdims.length
    else indices ++ (vdims.drop indices.length).map (Range.beginCount 0)
  let checked := checkIndices 0 idx vdims
  ⟨v, idx, checked.1, (if tooMany then [.tooManyIndices] else []) ++ checked.2⟩

theorem checkIndices_mem : ∀ {i : Nat} {rs : Space} {ds : List Nat},
    (checkIndices i rs ds).2 = [] → rs.length = ds.length →
    ∀ x, Space.Mem rs x → Space.Mem (Space.ofDims ds) x
  | i, r :: rs, d :: ds, he, hl, xi :: x, hx => by
    simp only [checkIndices, List.append_eq_nil] at he
    obtain ⟨⟨hc, -⟩, he⟩ := he
    rw [Space.cons_mem_cons] at hx
    simp only [Space.ofDims, List.map_cons, Space.cons_mem_cons]
    refine ⟨?_, checkIndices_mem he (by simpa using hl) x hx.2⟩
    split_ifs at hc with hcont
    simp only [Range.contains, Range.beginCount, Bool.and_eq_true, decide_eq_true_eq] at hcont
    have := hx.1
    simp only [Range.mem_def, Range.beginCount] at this ⊢
    omega
  | _, [], [], _, _, x, hx => hx
  | _, [], _ :: _, _, hl, _, _ => by simp at hl
  | _, _ :: _, [], _, hl, _, _ => by simp at hl
  | _, _ :: _, _ :: _, _, _, [], hx => by simp [Space.Mem] at hx

@[simp] theorem Argument.make_var (v : Var) (vdims : List Nat) (ind : Space) :
    (Argument.make v vdims ind).var = v := rfl

/-- An argument without errors has one range per dimension of its variable, inside it. -/
theorem Argument.make_valid {v : Var} {vdims : List Nat} {ind : Space}
    (h : (Argument.make v vdims ind).errors = []) :
    (Argument.make v vdims ind).indices.length = vdims.length ∧
      ∀ x, Space.Mem (Argument.make v vdims ind).indices x → Space.Mem (Space.ofDims vdims) x := by
  unfold Argument.make at h ⊢
  by_cases hm : ind.length > vdims.length
  · simp [hm] at h
  · simp only [hm, decide_False, Bool.false_eq_true, if_false, List.nil_append] at h ⊢
    have hl : (ind ++ (vdims.drop ind.length).map (Range.beginCount 0)).length = vdims.length := by
      simp; omega
    exact ⟨hl, checkIndices_mem h hl⟩

inductive CallError
  | wrongArgumentCount
  | baseType (arg : Nat)
  | accessType (arg : Nat)
  | blockSize (arg : Nat)
  deriving DecidableEq, Repr

/-- A kernel call as the parser builds it: the callee (its index and its packets), the arguments
and the parameters. -/
structure KernelCall where
  callee : Nat
  packets : List Packet
  args : List ArgExpr
  params : List Int
  derivedParams : List Int
  deriving DecidableEq, Repr

end MetaKernelSeq

open MetaKernelSeq in
/-- The body: the packets of the meta-kernel, its temporaries `Variables`, and `Operations`. -/
structure MetaKernelSeq where
  packets : List Packet
  vars : List Packet
  operations : List KernelCall
  deriving DecidableEq, Repr

namespace MetaKernelSeq

/-- The packet behind a variable. -/
def varPacket (s : MetaKernelSeq) : Var → Option Packet
  | .packet i => s.packets[i]?
  | .temp i => s.vars[i]?

namespace KernelCall

/-- `if(dim < 0) dim = DerivedParams_[-dim-1];`, undefined past the end of `DerivedParams_`. -/
def derivedDim (derived : List Int) (d : Int) : Option Int :=
  if d < 0 then derived[(-d - 1).toNat]? else some d

/-- The dimensions the callee demands of an argument: each is looked up as a derived parameter
when the packet gives it so, and once more in the loop. -/
def argDims (derived : List Int) (p : Packet) : Option (List Int) :=
  p.dims.mapM fun d => derivedDim derived d >>= derivedDim derived

/-- The `while` loop of the block-size check: from supplied dimension `p` down, dimensions of size
1 are skipped until one of size `d`. -/
def findDim (sizes : List Int) (d : Int) : Nat → Option Nat
  | 0 => if sizes[0]? = some d then some 0 else none
  | p + 1 =>
    if sizes[p + 1]? = some d then some (p + 1)
    else if sizes[p + 1]? = some 1 then findDim sizes d p else none

/-- The supplied dimension matched to a callee dimension of size `d`, with `suppidx = s` before;
past the first supplied dimension the size read is `-1`. -/
def matchDim (sizes : List Int) (d : Int) (s : Nat) : Option Nat :=
  if s = 0 then (if d = -1 then some 0 else none) else findDim sizes d (s - 1)

/-- The backward loop over the callee's dimensions, given last first, from `suppidx = s`: the
supplied dimensions it matched, in the callee's order, and the final `suppidx`, or `none` where a
dimension finds no match and the loop breaks. -/
def matchDims (sizes : List Int) : List Int → Nat → List Nat × Option Nat
  | [], s => ([], some s)
  | d :: ds, s =>
    match matchDim sizes d s with
    | none => ([], none)
    | some p =>
      let r := matchDims sizes ds p
      (r.1 ++ [p], r.2)

/-- `RelevantDims_` of an argument whose ranges have sizes `sizes`, resized to the callee's
dimensions and 0 where the loop broke before setting it; whether the block size is compatible;
and whether the supplied dimensions left before the matched ones are not all of size 1, which
also ends the loop over the arguments. -/
def relevantDims (sizes argdims : List Int) : List Nat × Bool × Bool :=
  let r := matchDims sizes argdims.reverse sizes.length
  let rd := List.replicate (argdims.length - r.1.length) 0 ++ r.1
  match r.2 with
  | none => (rd, false, false)
  | some s => if (sizes.take s).all (· = 1) then (rd, true, false) else (rd, false, true)

theorem findDim_spec {sizes : List Int} {d : Int} : ∀ {p q : Nat}, findDim sizes d p = some q →
    q ≤ p ∧ ∀ t, q < t → t ≤ p → sizes[t]? = some 1
  | 0, q, h => by
    simp only [findDim] at h
    split_ifs at h
    cases h
    exact ⟨Nat.le_refl 0, fun t h1 h2 => by omega⟩
  | p + 1, q, h => by
    simp only [findDim] at h
    split_ifs at h with h1 h2
    · cases h; exact ⟨Nat.le_refl _, fun t h1 h2 => by omega⟩
    · obtain ⟨hq, hs⟩ := findDim_spec h
      exact ⟨by omega, fun t ht1 ht2 => if htp : t = p + 1 then htp ▸ h2 else hs t ht1 (by omega)⟩

theorem matchDim_spec {sizes : List Int} {d : Int} {s q : Nat} (h : matchDim sizes d s = some q) :
    q ≤ s ∧ ∀ t, q < t → t < s → sizes[t]? = some 1 := by
  unfold matchDim at h
  split_ifs at h with hs hd
  · cases h; exact ⟨by omega, fun t _ _ => by omega⟩
  · obtain ⟨hq, hsk⟩ := findDim_spec h
    exact ⟨by omega, fun t h1 h2 => hsk t h1 (by omega)⟩

theorem matchDims_cons {sizes : List Int} {d : Int} {ds : List Int} {s : Nat} {rd : List Nat}
    {s' : Nat} (h : matchDims sizes (d :: ds) s = (rd, some s')) :
    ∃ p rd', matchDim sizes d s = some p ∧ matchDims sizes ds p = (rd', some s') ∧
      rd = rd' ++ [p] := by
  simp only [matchDims] at h
  split at h
  · simp at h
  · rename_i p hp
    obtain ⟨h1, h2⟩ := Prod.mk.inj h
    exact ⟨p, _, hp, Prod.ext rfl h2, h1.symm⟩

/-- A loop that matched every dimension gives one entry each; the supplied dimensions it passes
over without matching them have size 1. -/
theorem matchDims_spec {sizes : List Int} : ∀ {ds : List Int} {s : Nat} {rd : List Nat} {s' : Nat},
    matchDims sizes ds s = (rd, some s') →
    rd.length = ds.length ∧ s' ≤ s ∧ ∀ t, s' ≤ t → t < s → t ∉ rd → sizes[t]? = some 1
  | [], s, rd, s', h => by
    simp only [matchDims, Prod.mk.injEq, Option.some.injEq] at h
    obtain ⟨rfl, rfl⟩ := h
    exact ⟨rfl, Nat.le_refl _, fun t h1 h2 => by omega⟩
  | d :: ds, s, rd, s', h => by
    obtain ⟨p, rd', hp, hr, rfl⟩ := matchDims_cons h
    obtain ⟨hps, hskip⟩ := matchDim_spec hp
    obtain ⟨hlen, hs'', hrest⟩ := matchDims_spec hr
    refine ⟨by simp [hlen], by omega, fun t h1 h2 ht => ?_⟩
    simp only [List.mem_append, List.mem_singleton, not_or] at ht
    rcases Nat.lt_or_gt_of_ne ht.2 with htp | htp
    · exact hrest t h1 htp ht.1
    · exact hskip t htp h2

/-- A compatible block size: the loop matched every dimension of the callee, and did not end the
loop over the arguments. -/
theorem relevantDims_eq_ok {sizes argdims : List Int} {rd : List Nat} {stop : Bool}
    (h : relevantDims sizes argdims = (rd, true, stop)) : stop = false ∧
      ∃ s, matchDims sizes argdims.reverse sizes.length = (rd, some s) ∧
        (sizes.take s).all (· = 1) = true := by
  unfold relevantDims at h
  generalize hm : matchDims sizes argdims.reverse sizes.length = r at h
  obtain ⟨rd', _ | s⟩ := r
  · simp at h
  · obtain ⟨hlen, -⟩ := matchDims_spec hm
    dsimp only at h
    split_ifs at h with hall
    · simp only [hlen, List.length_reverse, Nat.sub_self, List.replicate_zero, List.nil_append,
        Prod.mk.injEq, true_and] at h
      obtain ⟨rfl, rfl⟩ := h
      exact ⟨rfl, s, rfl, hall⟩
    · simp at h

/-- Every dimension of an argument that the callee does not see has size 1. -/
theorem relevantDims_spec {sizes argdims : List Int} {rd : List Nat} {b : Bool}
    (h : relevantDims sizes argdims = (rd, true, b)) :
    ∀ t < sizes.length, t ∉ rd → sizes[t]? = some 1 := by
  obtain ⟨-, s, hm, hall⟩ := relevantDims_eq_ok h
  obtain ⟨-, hs, hskip⟩ := matchDims_spec hm
  intro t ht htr
  by_cases hts : s ≤ t
  · exact hskip t hts ht htr
  · have := List.all_eq_true.mp hall sizes[t] (List.mem_iff_getElem.mpr
      ⟨t, by simp; omega, by simp⟩)
    simp only [decide_eq_true_eq] at this
    simp [List.getElem?_eq_getElem ht, this]

/-- The checks of argument `j` against the packet `demand` of the callee: base type, access type
and block size. -/
def checkArg (c : KernelCall) (j : Nat) (a : Argument) (supply demand : Packet) :
    Option (List CallError × List Nat × Bool) := do
  let argdims ← argDims c.derivedParams demand
  let r := relevantDims (a.indices.map Range.size) argdims
  pure ((if supply.baseSize = demand.baseSize then [] else [.baseType (j + 1)]) ++
    (if supply.access = .in ∧ demand.access ≠ .in then [.accessType (j + 1)] else []) ++
    (if r.2.1 then [] else [.blockSize (c.params.length + j + 1)]), r.1, r.2.2)

/-- The loop of the constructor over the arguments from the `j`-th on: the errors, and the
relevant dimensions of each argument (empty for those after the loop stopped). -/
def checkArgs (c : KernelCall) : Nat → List (Argument × Packet × Packet) →
    Option (List CallError × List (List Nat))
  | _, [] => some ([], [])
  | j, (a, supply, demand) :: rest => do
    let r ← c.checkArg j a supply demand
    if r.2.2 then pure (r.1, r.2.1 :: rest.map fun _ => [])
    else
      let r' ← c.checkArgs (j + 1) rest
      pure (r.1 ++ r'.1, r.2.1 :: r'.2)

theorem checkArg_eq_some {c : KernelCall} {j : Nat} {a : Argument} {supply demand : Packet}
    {r : List CallError × List Nat × Bool} (h : c.checkArg j a supply demand = some r)
    (he : r.1 = []) : supply.baseSize = demand.baseSize ∧
      ¬ (supply.access = .in ∧ demand.access ≠ .in) ∧ ∃ argdims,
      argDims c.derivedParams demand = some argdims ∧
      relevantDims (a.indices.map Range.size) argdims = (r.2.1, true, false) ∧ r.2.2 = false := by
  simp only [checkArg, Option.bind_eq_bind, Option.bind_eq_some, Option.pure_def,
    Option.some.injEq] at h
  obtain ⟨argdims, had, rfl⟩ := h
  have hb : supply.baseSize = demand.baseSize := by
    by_contra hb
    simp [hb] at he
  have hacc : ¬ (supply.access = .in ∧ demand.access ≠ .in) := fun ⟨h1, h2⟩ => by
    simp [h1, h2] at he
  generalize hrel : relevantDims (a.indices.map Range.size) argdims = q at he ⊢
  obtain ⟨rd, _ | _, stop⟩ := q
  · simp at he
  · obtain ⟨rfl, -⟩ := relevantDims_eq_ok hrel
    exact ⟨hb, hacc, argdims, had, hrel, rfl⟩

/-- Where the loop over the arguments reports no error, each argument has the base type its
callee asks for, and got its relevant dimensions. -/
theorem checkArgs_valid {c : KernelCall} : ∀ {j : Nat} {l : List (Argument × Packet × Packet)}
    {errs : List CallError} {rds : List (List Nat)}, c.checkArgs j l = some (errs, rds) →
    errs = [] → ∀ (t : Nat) (a : Argument) (supply demand : Packet), l[t]? = some (a, supply, demand) →
    supply.baseSize = demand.baseSize ∧ ¬ (supply.access = .in ∧ demand.access ≠ .in) ∧
      ∃ argdims rd, argDims c.derivedParams demand = some argdims ∧
      relevantDims (a.indices.map Range.size) argdims = (rd, true, false) ∧ rds[t]? = some rd
  | _, [], _, _, _, _, t, _, _, _, ht => by simp at ht
  | j, (a, supply, demand) :: rest, errs, rds, h, he, t, a', s', d', ht => by
    simp only [checkArgs, Option.bind_eq_bind, Option.bind_eq_some] at h
    obtain ⟨r, hr, h⟩ := h
    split_ifs at h with hstop
    · simp only [Option.pure_def, Option.some.injEq, Prod.mk.injEq] at h
      obtain ⟨rfl, -⟩ := h
      obtain ⟨-, -, _, _, _, h2⟩ := checkArg_eq_some hr he
      simp [h2] at hstop
    · simp only [Option.bind_eq_bind, Option.bind_eq_some, Option.pure_def, Option.some.injEq,
        Prod.mk.injEq] at h
      obtain ⟨r', hr', rfl, rfl⟩ := h
      rw [List.append_eq_nil] at he
      obtain ⟨hb, hacc, argdims, had, hrd, -⟩ := checkArg_eq_some hr he.1
      cases t with
      | zero =>
        simp only [List.getElem?_cons_zero, Option.some.injEq, Prod.mk.injEq] at ht
        obtain ⟨rfl, rfl, rfl⟩ := ht
        exact ⟨hb, hacc, argdims, r.2.1, had, hrd, by simp⟩
      | succ t => simpa using checkArgs_valid hr' he.2 t a' s' d' (by simpa using ht)

/-- What the constructor `KernelCall(callee, args, params, derivedparams)` computes: the arguments,
the errors and the relevant dimensions of each argument; `none` where it reads past the end of
`DerivedParams_`, or an argument names no variable of the body. -/
def build (vp : Var → Option Packet) (c : KernelCall) :
    Option (List Argument × List CallError × List (List Nat)) := do
  let args ← c.args.mapM fun a => (vp a.var).map fun p => (Argument.make a.var p.sizes a.indices, p)
  if args.length ≠ c.packets.length then
    return (args.map (·.1), [.wrongArgumentCount], args.map fun _ => [])
  let r ← c.checkArgs 0 (List.zipWith (fun a demand => (a.1, a.2, demand)) args c.packets)
  pure (args.map (·.1), r)

/-- `IsValid()`. -/
def isValid (vp : Var → Option Packet) (c : KernelCall) : Bool :=
  match c.build vp with
  | some (args, errs, _) => errs.isEmpty && args.all (·.errors.isEmpty)
  | none => false

/-- What the constructor leaves for argument `t` of a call without errors: the argument built
from its expression and its variable's packet, of the callee's base type, and its relevant
dimensions. -/
theorem build_valid {vp : Var → Option Packet} {c : KernelCall} {args : List Argument}
    {rds : List (List Nat)} (h : c.build vp = some (args, [], rds)) (t : Nat) (a : Argument)
    (ht : args[t]? = some a) : ∃ ae p demand argdims rd, c.args[t]? = some ae ∧
      vp ae.var = some p ∧ a = Argument.make ae.var p.sizes ae.indices ∧
      c.packets[t]? = some demand ∧ p.baseSize = demand.baseSize ∧
      ¬ (p.access = .in ∧ demand.access ≠ .in) ∧ argDims c.derivedParams demand = some argdims ∧
      relevantDims (a.indices.map Range.size) argdims = (rd, true, false) ∧ rds[t]? = some rd := by
  simp only [build, Option.bind_eq_bind, Option.bind_eq_some] at h
  obtain ⟨args0, hargs, h⟩ := h
  split_ifs at h with hlen
  · simp at h
  simp only [Option.bind_eq_bind, Option.bind_eq_some, Option.pure_def, Option.some.injEq,
    Prod.mk.injEq] at h
  obtain ⟨-, -, r, hr, rfl, rfl⟩ := h
  rw [List.getElem?_map] at ht
  obtain ⟨⟨a0, p⟩, h0, rfl⟩ := Option.map_eq_some'.1 ht
  have hg := getElem?_mapM hargs t
  rw [h0] at hg
  obtain ⟨ae, hae, hg⟩ := Option.bind_eq_some.1 hg.symm
  obtain ⟨p', hp, hpe⟩ := Option.map_eq_some'.1 hg
  simp only [Prod.mk.injEq] at hpe
  obtain ⟨rfl, rfl⟩ := hpe
  have htl : t < c.packets.length := by
    have := (List.getElem?_eq_some_iff.1 h0).1; omega
  obtain ⟨demand, hd⟩ : ∃ demand, c.packets[t]? = some demand :=
    ⟨_, List.getElem?_eq_getElem htl⟩
  have hz : (List.zipWith (fun a demand => (a.1, a.2, demand)) args0 c.packets)[t]? =
      some (Argument.make ae.var p'.sizes ae.indices, p', demand) := by
    simp [List.getElem?_zipWith, h0, hd]
  obtain ⟨hb, hacc, argdims, rd, had, hrd, hrt⟩ := checkArgs_valid hr rfl t _ _ _ hz
  exact ⟨ae, p', demand, argdims, rd, hae, hp, rfl, hd, hb, hacc, had, hrd, hrt⟩

theorem isValid_iff {vp : Var → Option Packet} {c : KernelCall} : c.isValid vp = true ↔
    ∃ args rds, c.build vp = some (args, [], rds) ∧ ∀ a ∈ args, a.errors = [] := by
  unfold isValid
  split
  · rename_i args errs rds hb
    simp only [Bool.and_eq_true, List.isEmpty_iff, List.all_eq_true, hb, Option.some.injEq,
      Prod.mk.injEq]
    constructor
    · rintro ⟨he, ha⟩
      exact ⟨args, rds, ⟨rfl, he, rfl⟩, fun a h => by simpa using ha a h⟩
    · rintro ⟨_, _, ⟨rfl, rfl, rfl⟩, ha⟩
      exact ⟨rfl, fun a h => by simpa using ha a h⟩
  · simp [*]

end KernelCall

/-- Who wrote a section of a variable: the dummy argument standing for input packet `i` of the
meta-kernel, or argument `j` of operation `k`. -/
inductive DefSite
  | input (i : Nat)
  | arg (k j : Nat)
  deriving DecidableEq, Repr

/-- The interfaces a dependency connects: of the meta-kernel's `Inputs` and `Outputs` pseudo-tasks,
and interface `j` of the task of operation `k`. -/
inductive Iface
  | inputs (i : Nat)
  | outputs (i : Nat)
  | task (k j : Nat)
  deriving DecidableEq, Repr

/-- `Dependency::Anchor`. -/
structure Anchor where
  iface : Iface
  index : Space
  deriving DecidableEq, Repr

/-- `spec::Dependency`, with its `From` and `To` anchors. -/
structure Dependency where
  fromAnchor : Anchor
  toAnchor : Anchor
  deriving DecidableEq, Repr

/-- The two errors the translation reports: a read of cells no one wrote, and cells of an `out`
packet that no call writes. -/
inductive ResolveError
  | uninitialized (k : Nat) (v : Var) (indices : Space)
  | unspecified (i : Nat) (indices : Space)
  deriving DecidableEq, Repr

/-- `IndicesAbsToRel(abs, ref, relvdims)`: the dimensions `relvdims` of `abs`, counted from the
origin of `ref`. -/
def indicesAbsToRel (abs ref : Space) (relvdims : List Nat) : Option Space :=
  relvdims.mapM fun dim => do
    let a ← abs[dim]?
    let r ← ref[dim]?
    pure (a.displace (-r.lo))

/-- Argument `j` of an operation, with the callee's packet for it and its relevant dimensions. -/
structure Item where
  j : Nat
  arg : Argument
  demand : Packet
  rd : List Nat
  deriving DecidableEq, Repr

/-- The arguments of operation `k` as its constructor leaves them, in order. -/
def items (s : MetaKernelSeq) (k : Nat) : Option (List Item) := do
  let c ← s.operations[k]?
  let r ← c.build s.varPacket
  pure ((r.1.zip c.packets).enum.map fun (j, a, p) => ⟨j, a, p, (r.2.2[j]?).getD []⟩)

theorem items_eq_some {s : MetaKernelSeq} {k : Nat} {its : List Item} :
    s.items k = some its ↔ ∃ c r, s.operations[k]? = some c ∧ c.build s.varPacket = some r ∧
      its = (r.1.zip c.packets).enum.map fun (j, a, p) => ⟨j, a, p, (r.2.2[j]?).getD []⟩ := by
  simp only [items, Option.bind_eq_bind, Option.bind_eq_some, Option.pure_def, Option.some.injEq]
  exact ⟨fun ⟨c, hc, r, hr, h⟩ => ⟨c, r, hc, hr, h.symm⟩,
    fun ⟨c, r, hc, hr, h⟩ => ⟨c, hc, r, hr, h.symm⟩⟩

/-- Argument `j` of an operation is its `j`-th item. -/
theorem getElem?_items {s : MetaKernelSeq} {k : Nat} {its : List Item} (h : s.items k = some its)
    {it : Item} (hit : it ∈ its) : its[it.j]? = some it := by
  obtain ⟨c, r, -, -, rfl⟩ := items_eq_some.1 h
  obtain ⟨⟨j, a, p⟩, hm, rfl⟩ := List.mem_map.1 hit
  simp [List.getElem?_enum, List.mem_enum_iff_getElem?.1 hm]

theorem items_pairwise {s : MetaKernelSeq} {k : Nat} {its : List Item} (h : s.items k = some its) :
    its.Pairwise fun a b => a.j ≠ b.j := by
  obtain ⟨c, r, -, -, rfl⟩ := items_eq_some.1 h
  have hj : ((r.1.zip c.packets).enum.map fun (j, a, p) =>
      (⟨j, a, p, (r.2.2[j]?).getD []⟩ : Item)).map (·.j) = List.range (r.1.zip c.packets).length := by
    rw [List.map_map, ← List.enum_map_fst]; rfl
  exact List.pairwise_map.1 (hj ▸ List.nodup_range _)

/-- The indices, relevant dimensions and interface of the argument behind a definition; the
dummy argument of an input packet has the full space and all its dimensions. -/
def writer (s : MetaKernelSeq) : DefSite → Option (Space × List Nat × Iface)
  | .input i => do
    let p ← s.packets[i]?
    pure (Space.ofDims p.sizes, List.range p.dims.length, .inputs i)
  | .arg k j => do
    let its ← s.items k
    let it ← its[j]?
    pure (it.arg.indices, it.rd, .task k j)

theorem writer_arg {s : MetaKernelSeq} {k : Nat} {its : List Item} (h : s.items k = some its)
    {it : Item} (hit : it ∈ its) : s.writer (.arg k it.j) = some (it.arg.indices, it.rd, .task k it.j) := by
  simp [writer, h, getElem?_items h hit]

theorem writer_input {s : MetaKernelSeq} {i : Nat} {p : Packet} (h : s.packets[i]? = some p) :
    s.writer (.input i) = some (Space.ofDims p.sizes, List.range p.dims.length, .inputs i) := by
  simp [writer, h]

/-- The bounding space of a variable's division. -/
def fullSpace (s : MetaKernelSeq) (v : Var) : Space :=
  Space.ofDims (((s.varPacket v).map Packet.sizes).getD [])

/-- What a valid call guarantees of each of its arguments: its indices lie in its variable, the
dimensions the callee does not see are single cells, and its variable has the callee's base
type. -/
structure Item.Valid (s : MetaKernelSeq) (it : Item) : Prop where
  dims : it.arg.indices.length = (s.fullSpace it.arg.var).length
  inside : ∀ x, Space.Mem it.arg.indices x → Space.Mem (s.fullSpace it.arg.var) x
  collapsed : ∀ i r, it.arg.indices[i]? = some r → i ∉ it.rd → r.size = 1
  baseSize : ∃ p, s.varPacket it.arg.var = some p ∧ p.baseSize = it.demand.baseSize

theorem items_valid {s : MetaKernelSeq} {k : Nat} {its : List Item} (h : s.items k = some its)
    (hv : ∀ c ∈ s.operations, c.isValid s.varPacket) : ∀ it ∈ its, it.Valid s := by
  obtain ⟨c, r, hc, hr, rfl⟩ := items_eq_some.1 h
  obtain ⟨args, rds, hb, ha⟩ := KernelCall.isValid_iff.1 (hv c (List.getElem?_mem hc))
  rw [hr, Option.some.injEq] at hb
  subst hb
  intro it hit
  obtain ⟨⟨j, a, p⟩, hm, rfl⟩ := List.mem_map.1 hit
  obtain ⟨haj, hpj⟩ := List.getElem?_zip_eq_some.1 (List.mem_enum_iff_getElem?.1 hm)
  obtain ⟨ae, p', demand, argdims, rd, -, hp, rfl, hd, hb, -, -, hrd, hrt⟩ :=
    KernelCall.build_valid hr j _ haj
  obtain rfl : p = demand := Option.some.inj (hpj.symm.trans hd)
  obtain ⟨hl, hin⟩ := Argument.make_valid (ha _ (List.getElem?_mem haj))
  have hF : s.fullSpace ae.var = Space.ofDims p'.sizes := by simp [fullSpace, hp]
  refine ⟨by simp only [Argument.make_var, hF, hl, Space.length_ofDims], by simpa only
    [Argument.make_var, hF] using hin, fun i q hq hi => ?_, ⟨p', hp, hb⟩⟩
  have hsz := KernelCall.relevantDims_spec hrd i (by simpa using (List.getElem?_eq_some_iff.1 hq).1)
    (by simpa [hrt] using hi)
  simpa [hq] using hsz

/-- The definition of a variable before the first call: none for a temporary or an `out` packet,
the meta-kernel's input for an `in` or `inout` packet. -/
def initialDef (s : MetaKernelSeq) : Var → Option DefSite
  | .temp _ => none
  | .packet i => match s.packets[i]? with
    | some p => if p.access = .out then none else some (.input i)
    | none => none

/-- What `TranslateToMetaKernel` keeps: the division of each variable by definition, and the
dependencies and errors so far. -/
structure State where
  defs : Var → SpaceDivision (Option DefSite)
  deps : List Dependency
  errors : List ResolveError

def initState (s : MetaKernelSeq) : State :=
  ⟨fun v => (SpaceDivision.empty (s.fullSpace v)).assignSection (s.fullSpace v) (s.initialDef v),
    [], []⟩

/-- One section of what argument `j` of operation `k` reads: a dependency from its writer, or an
error where no one wrote it. -/
def readSection (s : MetaKernelSeq) (k j : Nat) (a : Argument) (rd : List Nat)
    (sec : Option DefSite × Space) : Option (List Dependency × List ResolveError) :=
  match sec.1 with
  | none => some ([], [.uninitialized k a.var sec.2])
  | some d => do
    let w ← s.writer d
    let fromIndex ← indicesAbsToRel sec.2 w.1 w.2.1
    let toIndex ← indicesAbsToRel sec.2 a.indices rd
    pure ([⟨⟨w.2.2, fromIndex⟩, ⟨.task k j, toIndex⟩⟩], [])

/-- A section is either unwritten, an error, or read from its writer as one dependency. -/
theorem readSection_eq_some {s : MetaKernelSeq} {k j : Nat} {a : Argument} {rd : List Nat}
    {sec : Option DefSite × Space} {r : List Dependency × List ResolveError}
    (h : s.readSection k j a rd sec = some r) :
    (sec.1 = none ∧ r = ([], [.uninitialized k a.var sec.2])) ∨ ∃ site w fromIndex toIndex,
      sec.1 = some site ∧ s.writer site = some w ∧ indicesAbsToRel sec.2 w.1 w.2.1 = some fromIndex ∧
      indicesAbsToRel sec.2 a.indices rd = some toIndex ∧
      r = ([⟨⟨w.2.2, fromIndex⟩, ⟨.task k j, toIndex⟩⟩], []) := by
  unfold readSection at h
  split at h
  · exact .inl ⟨‹_›, (Option.some.inj h).symm⟩
  · rename_i site hsite
    simp only [Option.bind_eq_bind, Option.bind_eq_some, Option.pure_def, Option.some.injEq] at h
    obtain ⟨w, hw, fi, hfi, ti, hti, rfl⟩ := h
    exact .inr ⟨site, w, fi, ti, hsite, hw, hfi, hti, rfl⟩

/-- The inputs loop for one argument, over the sections of `SubDivision(arg.GetIndices())`. -/
def readArg (s : MetaKernelSeq) (k j : Nat) (a : Argument) (rd : List Nat)
    (d : SpaceDivision (Option DefSite)) : Option (List Dependency × List ResolveError) := do
  let rs ← (d.subDivision a.indices).sections.mapM (s.readSection k j a rd)
  pure ((rs.map (·.1)).flatten, (rs.map (·.2)).flatten)

theorem readArg_eq_some {s : MetaKernelSeq} {k j : Nat} {a : Argument} {rd : List Nat}
    {d : SpaceDivision (Option DefSite)} {r : List Dependency × List ResolveError}
    (h : s.readArg k j a rd d = some r) : ∃ rs,
      (d.subDivision a.indices).sections.mapM (s.readSection k j a rd) = some rs ∧
      r = ((rs.map (·.1)).flatten, (rs.map (·.2)).flatten) := by
  simp only [readArg, Option.bind_eq_bind, Option.bind_eq_some, Option.pure_def,
    Option.some.injEq] at h
  obtain ⟨rs, hrs, rfl⟩ := h
  exact ⟨rs, hrs, rfl⟩

/-- The outputs loop for one argument: it now defines its indices. -/
def writeArg (k j : Nat) (a : Argument) (defs : Var → SpaceDivision (Option DefSite)) :
    Var → SpaceDivision (Option DefSite) :=
  Function.update defs a.var ((defs a.var).assignSection a.indices (some (.arg k j)))

/-- The body of the inputs loop for one argument: an `out` argument reads nothing. -/
def readItem (s : MetaKernelSeq) (k : Nat) (defs : Var → SpaceDivision (Option DefSite))
    (it : Item) : Option (List Dependency × List ResolveError) :=
  if it.demand.access = .out then some ([], []) else s.readArg k it.j it.arg it.rd (defs it.arg.var)

/-- The body of the outputs loop for one argument: an `in` argument writes nothing. -/
def writeItem (k : Nat) (defs : Var → SpaceDivision (Option DefSite)) (it : Item) :
    Var → SpaceDivision (Option DefSite) :=
  if it.demand.access = .in then defs else writeArg k it.j it.arg defs

/-- The pass of the loop over `Operations` for operation `k`: its inputs read the definitions
from before it, then its outputs define their indices, in the order of the arguments. -/
def step (s : MetaKernelSeq) (k : Nat) (st : State) : Option State := do
  let its ← s.items k
  let reads ← its.mapM (s.readItem k st.defs)
  pure ⟨its.foldl (writeItem k) st.defs,
    st.deps ++ (reads.map (·.1)).flatten, st.errors ++ (reads.map (·.2)).flatten⟩

/-- The inversion of one pass: the reads of operation `k` succeeded on the definitions before
it, its writes were applied in order, and its dependencies and errors were appended. -/
theorem step_eq_some {s : MetaKernelSeq} {k : Nat} {st st' : State} (h : s.step k st = some st') :
    ∃ its reads, s.items k = some its ∧ its.mapM (s.readItem k st.defs) = some reads ∧
      st' = ⟨its.foldl (writeItem k) st.defs,
        st.deps ++ (reads.map (·.1)).flatten, st.errors ++ (reads.map (·.2)).flatten⟩ := by
  simp only [step, Option.bind_eq_bind, Option.bind_eq_some, Option.pure_def,
    Option.some.injEq] at h
  obtain ⟨its, hits, reads, hreads, rfl⟩ := h
  exact ⟨its, reads, hits, hreads, rfl⟩

/-- The final loop: every written section of a non-`in` packet flows to the `Outputs` pseudo-task,
and the unwritten cells of an `out` packet are an error. -/
def finishSection (s : MetaKernelSeq) (i : Nat) (p : Packet) (sec : Option DefSite × Space) :
    Option (List Dependency × List ResolveError) :=
  match sec.1 with
  | some d => do
    let w ← s.writer d
    let fromIndex ← indicesAbsToRel sec.2 w.1 w.2.1
    pure ([⟨⟨w.2.2, fromIndex⟩, ⟨.outputs i, sec.2⟩⟩], [])
  | none => some ([], if p.access = .out then [.unspecified i sec.2] else [])

def finish (s : MetaKernelSeq) (st : State) : Option State := do
  let rs ← ((List.range s.packets.length).zip s.packets).mapM fun (i, p) =>
    if p.access = .in then some []
    else (st.defs (.packet i)).sections.mapM (s.finishSection i p)
  let rs := rs.flatten
  pure { st with deps := st.deps ++ (rs.map (·.1)).flatten, errors := st.errors ++ (rs.map (·.2)).flatten }

/-- The final loop only appends, and only dependencies into the `Outputs` pseudo-task. -/
theorem finish_eq_some {s : MetaKernelSeq} {st st' : State} (h : s.finish st = some st') :
    ∃ ds es, st' = ⟨st.defs, st.deps ++ ds, st.errors ++ es⟩ ∧
      ∀ d ∈ ds, ∃ i, d.toAnchor.iface = .outputs i := by
  simp only [finish, Option.bind_eq_bind, Option.bind_eq_some, Option.pure_def,
    Option.some.injEq] at h
  obtain ⟨rs, hrs, rfl⟩ := h
  refine ⟨_, _, rfl, fun d hd => ?_⟩
  simp only [List.mem_flatten, List.mem_map] at hd
  obtain ⟨_, ⟨r, hr, rfl⟩, hd⟩ := hd
  obtain ⟨secs, hsecs, hr⟩ := hr
  obtain ⟨⟨i, p⟩, -, hip⟩ := exists_of_mem_mapM_result hrs secs hsecs
  split at hip
  · simp only [Option.some.injEq] at hip
    simp [← hip] at hr
  obtain ⟨sec, -, hsec⟩ := exists_of_mem_mapM_result hip r hr
  unfold finishSection at hsec
  split at hsec
  · simp only [Option.bind_eq_bind, Option.bind_eq_some, Option.pure_def,
      Option.some.injEq] at hsec
    obtain ⟨w, -, fi, -, rfl⟩ := hsec
    simp only [List.mem_singleton] at hd
    exact ⟨i, by rw [hd]⟩
  · simp only [Option.some.injEq] at hsec
    simp [← hsec] at hd

/-- `TranslateToMetaKernel`: whether it succeeded, with the dependencies and errors it produced;
`none` where the source reads past an array. -/
def translateToMetaKernel (s : MetaKernelSeq) : Option (Bool × List Dependency × List ResolveError) :=
  if s.operations.all (·.isValid s.varPacket) then do
    let st ← (List.range s.operations.length).foldlM (fun st k => s.step k st) s.initState
    let st ← s.finish st
    pure (st.errors.isEmpty, st.deps, st.errors)
  else some (false, [], [])

/-- A translation that reports success ran every operation and the final loop, with no error. -/
theorem translateToMetaKernel_eq_true {s : MetaKernelSeq} {deps : List Dependency}
    {errs : List ResolveError} (h : s.translateToMetaKernel = some (true, deps, errs)) :
    (∀ c ∈ s.operations, c.isValid s.varPacket) ∧ ∃ st st',
      (List.range s.operations.length).foldlM (fun st k => s.step k st) s.initState = some st ∧
      s.finish st = some st' ∧ st'.errors = [] ∧ st'.deps = deps := by
  unfold translateToMetaKernel at h
  split_ifs at h with hv
  · simp only [Option.bind_eq_bind, Option.bind_eq_some, Option.pure_def, Option.some.injEq,
      Prod.mk.injEq, List.isEmpty_iff] at h
    obtain ⟨st, hst, st', hst', he, hd, -⟩ := h
    exact ⟨List.all_eq_true.1 hv, st, st', hst, hst', he, hd⟩
  · simp at h

end MetaKernelSeq

end Ladybirds
