import Mathlib.Data.List.Sort
import Mathlib.Data.List.Dedup
import Ladybirds.SpaceDivision

/-! # Merging ports by buffer

`MergePortsByBuffer` prunes the ports of each buffer, giving each cell to the first port that holds
it, and then merges ports into bounding unions that cost no extra cells, round after round. Ports
are numbered, and `addr` stands for the pointer values `std::sort` orders them by.
-/

namespace Ladybirds

namespace MergePorts

/-- `impl::Port` as the collection loop of `MergeByBuffers` leaves it: its interface (`Iface_`,
`none` once invalidated), `Position`, `*BufferDims`, `BufferBaseTypeSize`, the buffer of its
interface, and whether it has a channel. -/
structure Port where
  iface : Option Nat
  position : Space
  bufferDims : List Nat
  baseTypeSize : Int
  buffer : Nat
  connected : Bool
  deriving DecidableEq, Inhabited

/-- `Port::IsValid`. -/
def Port.isValid (p : Port) : Bool := p.iface.isSome

/-- `Port::Invalidate`. -/
def Port.invalidate (p : Port) : Port := { p with iface := none }

@[simp] theorem Port.isValid_invalidate (p : Port) : p.invalidate.isValid = false := rfl

@[simp] theorem Port.isValid_setPosition (p : Port) (s : Space) :
    ({ p with position := s } : Port).isValid = p.isValid := rfl

/-- The two loops of `IsWithinLimits` over the ranges from the last dimension on: the first
against the limits in order, the second against the last limit. -/
def withinLimits (limit : Int) : Space → List Int → Bool
  | [], _ => false
  | r :: s, l :: ls => decide (r.size ≤ l) || withinLimits limit s ls
  | s, [] => s.any fun r => decide (r.size ≤ limit)

/-- `IsWithinLimits`. -/
def isWithinLimits (s : Space) (limits : List Int) : Bool :=
  withinLimits (limits.getLastD 0) s.reverse limits

section Prune

variable (P : Nat → Port)

/-- The first loop of `PrunePortList`: the valid ports' Positions are assigned from the end of
the vector to its start, so that a cell ends with the first port holding it. -/
def assignPorts (F : Space) (ports : List Nat) : SpaceDivision Nat :=
  ports.foldr (fun i d => if (P i).isValid then d.assignSection (P i).position i else d)
    (SpaceDivision.empty F)

/-- The body of the second loop of `PrunePortList` for port `i`: a valid port becomes the
envelope of the cells it kept, or is invalidated when it kept none. -/
def shrink (sd : SpaceDivision Nat) (i : Nat) (p : Port) : Port :=
  if p.isValid then
    if Space.isEmpty (sd.getEnvelope i) then p.invalidate
    else { p with position := sd.getEnvelope i }
  else p

/-- `PrunePortList` over the vector `ports`, in the division of the first port's
`Space(*BufferDims)`. -/
def prunePortList : List Nat → Nat → Port
  | [] => P
  | i :: ports =>
    let sd := assignPorts P (Space.ofDims (P i).bufferDims) (i :: ports)
    (i :: ports).foldl (fun Q j => Function.update Q j (shrink sd j (Q j))) P

end Prune

/-- `PortMergeInfo`. -/
structure MergeInfo where
  port1 : Nat
  port2 : Nat
  sameIface : Bool
  resultingPos : Space
  resultingSize : Int
  cost : Int

/-- `PortMergeInfo::operator<`: the more favourable option is the smaller. -/
def MergeInfo.lt (a b : MergeInfo) : Bool :=
  if a.sameIface ≠ b.sameIface then a.sameIface
  else if a.cost ≠ b.cost then decide (a.cost < b.cost)
  else decide (a.resultingSize < b.resultingSize)

section Merge

variable (P : Nat → Port)

/-- The option of merging port `i1` into the earlier port `i2`. -/
def mergeInfo (i2 i1 : Nat) : MergeInfo :=
  let pos := Space.union (P i1).position (P i2).position
  ⟨i2, i1, (P i1).iface == (P i2).iface, pos, pos.volume,
    pos.volume - (P i1).position.volume - (P i2).position.volume⟩

/-- `FindMergeOptions`: for each valid port, one option with each valid port before it. -/
def findMergeOptions (ports : List Nat) : List MergeInfo :=
  ports.enum.flatMap fun e =>
    if (P e.2).isValid then ((ports.take e.1).filter fun i2 => (P i2).isValid).map (mergeInfo P · e.2)
    else []

/-- Performing an option: `Port1` takes the merged Position and `Port2` is invalidated. -/
def applyMerge (o : MergeInfo) : Nat → Port :=
  let P := Function.update P o.port1 { P o.port1 with position := o.resultingPos }
  Function.update P o.port2 (P o.port2).invalidate

/-- The three `continue`s of the option loop: an option is taken when neither of its ports was
merged in this round, it costs no extra cells, and it joins one interface or stays within the
limits. -/
def eligible (limits : List Int) (merged : List Nat) (o : MergeInfo) : Bool :=
  !(merged.contains o.port1 || merged.contains o.port2) && decide (o.cost ≤ 0) &&
    (o.sameIface || isWithinLimits o.resultingPos limits)

end Merge

/-- The option loop of one round of `MergePortList`: it breaks at the first option the performed
one beats, and performs each eligible option before it. -/
def performMerges (limits : List Int) :
    List MergeInfo → (Nat → Port) → Option MergeInfo → List Nat → (Nat → Port) × Option MergeInfo
  | [], P, performed, _ => (P, performed)
  | o :: options, P, performed, merged =>
    if performed.any (·.lt o) then (P, performed)
    else if eligible limits merged o then
      performMerges limits options (applyMerge P o) (some o) (o.port1 :: o.port2 :: merged)
    else performMerges limits options P performed merged

/-- `MergePortList`: each round finds the options, sorts the vector by address and runs the
option loop; the do-while goes on while a round performs a merge. `fuel` bounds the rounds. -/
def mergePortList (addr : Nat → Nat) (limits : List Int) :
    Nat → (Nat → Port) → List Nat → Option (Nat → Port)
  | 0, _, _ => none
  | fuel + 1, P, ports =>
    match performMerges limits (findMergeOptions P ports) P none [] with
    | (P, none) => some P
    | (P, some _) => mergePortList addr limits fuel P (ports.insertionSort fun i j => addr i ≤ addr j)

/-- The body of the buffer loop of `MergeByBuffers` for a buffer's vector `ports` (walked
backwards for outputs, whose `mergebegin` is `rbegin`): a vector of more than one port is pruned
and merged, with `limits[0]` the first limit in elements of the first port's base type; the
do-while of `MergePortList` is given `#ports + 1` rounds. -/
def mergeBuffer (addr : Nat → Nat) (outputs : Bool) (limits : List Int) (P : Nat → Port)
    (ports : List Nat) : Option (Nat → Port) :=
  if 1 < ports.length then
    let seq := if outputs then ports.reverse else ports
    mergePortList addr (limits.set 0 ((limits.headD 0).tdiv (P (ports.headD 0)).baseTypeSize))
      (seq.length + 1) (prunePortList P seq) seq
  else some P

section Group

variable (grp : List Port)

/-- The `i`-th port of the task group, its operations' ports in order. -/
def portAt (i : Nat) : Port := grp.getD i default

/-- The collection loop of `MergeByBuffers`: a port without a channel is invalidated, the others
are disconnected. -/
def collect (i : Nat) : Port :=
  if (portAt grp i).connected then { portAt grp i with connected := false }
  else (portAt grp i).invalidate

/-- `opmap[b]`: the connected ports of buffer `b`, in the order they are pushed. -/
def bufferPorts (b : Nat) : List Nat :=
  (List.range grp.length).filter fun i => (portAt grp i).connected && (portAt grp i).buffer == b

/-- The keys of `opmap`, in the order of their first port. -/
def buffers : List Nat :=
  (((List.range grp.length).filter fun i => (portAt grp i).connected).map
    fun i => (portAt grp i).buffer).dedup

/-- `MergeByBuffers` on a task group whose ports are `grp`: the ports it leaves. -/
def mergeByBuffers (addr : Nat → Nat) (outputs : Bool) (limits : List Int) : Option (List Port) :=
  ((buffers grp).foldlM (fun P b => mergeBuffer addr outputs limits P (bufferPorts grp b))
    (collect grp)).map fun P => (List.range grp.length).map P

end Group

/-- The cell `x` lies in the Position of a valid port of the vector. -/
def Covered (P : Nat → Port) (ports : List Nat) (x : List Int) : Prop :=
  ∃ i ∈ ports, (P i).isValid ∧ Space.Mem (P i).position x

/-- Every cell of every valid port of the vector lies in `F`. -/
def Inside (P : Nat → Port) (F : Space) (ports : List Nat) : Prop :=
  ∀ i ∈ ports, (P i).isValid → ∀ x, Space.Mem (P i).position x → Space.Mem F x

/-- `F` contains `s` range by range. -/
def Within (F s : Space) : Prop := List.Forall₂ (fun rf r => rf.contains r = true) F s

instance (F s : Space) : Decidable (Within F s) :=
  inferInstanceAs (Decidable (List.Forall₂ _ F s))

/-- Every valid port of the vector is a non-empty box within `F`. -/
def Good (P : Nat → Port) (F : Space) (ports : List Nat) : Prop :=
  ∀ i ∈ ports, (P i).isValid → Space.isEmpty (P i).position = false ∧ Within F (P i).position

theorem contains_union {rf r r' : Range} (h : rf.contains r = true) (h' : rf.contains r' = true) :
    rf.contains (Range.union r r') = true := by
  simp only [Range.union, Range.contains, Range.isEmpty, Bool.and_eq_true, decide_eq_true_eq] at *
  split_ifs <;> simp_all [le_inf_iff, sup_le_iff]

theorem within_union : ∀ {F s t : Space}, Within F s → Within F t → Within F (Space.union s t)
  | _, _, _, .nil, .nil => .nil
  | _, _, _, .cons h hs, .cons h' ht => .cons (contains_union h h') (within_union hs ht)

theorem Within.mem {F s : Space} (h : Within F s) {x : List Int} (hx : Space.Mem s x) :
    Space.Mem F x := by
  induction h generalizing x with
  | nil => exact hx
  | cons hr _ ih =>
    obtain ⟨i, y, rfl, hi, hy⟩ := Space.mem_cons.1 hx
    simp only [Range.contains, Bool.and_eq_true, decide_eq_true_eq] at hr
    exact ⟨⟨by have := hi.1; omega, by have := hi.2; omega⟩, ih hy⟩

/-- A box whose two extreme corners lie in `F` is within `F`. -/
theorem within_of_corners : ∀ {F s : Space}, Space.Mem F (Space.origin s) →
    Space.Mem F (s.map (·.hi - 1)) → Within F s
  | [], [], _, _ => .nil
  | rf :: F, r :: s, ⟨hlo, hF⟩, ⟨hhi, hF'⟩ => by
    refine .cons ?_ (within_of_corners hF hF')
    simp only [Range.contains, Bool.and_eq_true, decide_eq_true_eq, Range.mem_def] at *
    omega
  | _ :: _, [], h, _ | [], _ :: _, h, _ => h.elim

theorem within_of_inside {F s : Space} (hne : Space.isEmpty s = false)
    (h : ∀ x, Space.Mem s x → Space.Mem F x) : Within F s :=
  within_of_corners (h _ (Space.mem_origin hne)) (h _ (Space.mem_lastCorner hne))

theorem within_clear (F : Space) : Within F (Space.clear F) := by
  induction F with
  | nil => exact .nil
  | cons r F ih => exact .cons (by simp [Range.contains, r.le]) ih

theorem within_foldl_union {F : Space} : ∀ (rest : List Space) {s : Space}, Within F s →
    (∀ t ∈ rest, Within F t) → Within F (rest.foldl Space.union s)
  | [], _, hs, _ => hs
  | t :: rest, _, hs, ht =>
    within_foldl_union rest (within_union hs (ht t (List.mem_cons_self _ _)))
      fun t' h => ht t' (List.mem_cons_of_mem _ h)

theorem Good.inside {P : Nat → Port} {F : Space} {ports : List Nat} (h : Good P F ports) :
    Inside P F ports :=
  fun i hi hv _ hx => (h i hi hv).2.mem hx

/-- The three predicates read a port only through its validity and Position. -/
theorem covered_congr {P P' : Nat → Port} {l l' : List Nat} (hl : ∀ i, i ∈ l ↔ i ∈ l')
    (hP : ∀ i ∈ l, (P i).isValid = (P' i).isValid ∧ (P i).position = (P' i).position)
    (x : List Int) : Covered P l x ↔ Covered P' l' x := by
  refine exists_congr fun i => ⟨fun ⟨hi, h⟩ => ?_, fun ⟨hi, h⟩ => ?_⟩
  · rw [← (hP i hi).1, ← (hP i hi).2]; exact ⟨(hl i).1 hi, h⟩
  · have hi' := (hl i).2 hi; rw [(hP i hi').1, (hP i hi').2]; exact ⟨hi', h⟩

theorem inside_congr {P P' : Nat → Port} {F : Space} {l l' : List Nat} (hl : ∀ i, i ∈ l ↔ i ∈ l')
    (hP : ∀ i ∈ l, (P i).isValid = (P' i).isValid ∧ (P i).position = (P' i).position) :
    Inside P F l ↔ Inside P' F l' := by
  refine forall_congr' fun i => ⟨fun h hi => ?_, fun h hi => ?_⟩
  · have hi' := (hl i).2 hi; rw [← (hP i hi').1, ← (hP i hi').2]; exact h hi'
  · rw [(hP i hi).1, (hP i hi).2]; exact h ((hl i).1 hi)

theorem same_of_eq {P P' : Nat → Port} {l : List Nat} (h : ∀ i ∈ l, P i = P' i) :
    ∀ i ∈ l, (P i).isValid = (P' i).isValid ∧ (P i).position = (P' i).position :=
  fun i hi => by rw [h i hi]; exact ⟨rfl, rfl⟩

theorem good_congr {P : Nat → Port} {F : Space} {l l' : List Nat} (hl : ∀ i, i ∈ l ↔ i ∈ l') :
    Good P F l ↔ Good P F l' :=
  forall_congr' fun i => by rw [hl i]

theorem isEmpty_interPrefix : ∀ {s t : Space}, Space.isEmpty s = true →
    Space.isEmpty (Space.interPrefix s t) = true
  | r :: s, r' :: t, h => by
    simp only [Space.isEmpty_cons, Bool.or_eq_true] at h
    unfold Space.interPrefix
    split_ifs with he
    · simp [he]
    · rcases h with h | h
      · simp only [Range.isEmpty_iff, Range.inter] at h he
        omega
      · simp [isEmpty_interPrefix (t := t) h]
  | [], _, h | _ :: _, [], h => h

/-- A Position without cells assigns nothing. -/
theorem assignSection_of_isEmpty {A : Type} (d : SpaceDivision A) {sec : Space}
    (h : Space.isEmpty sec = true) (a : A) : d.assignSection sec a = d := by
  have hp := isEmpty_interPrefix (t := d.fullSpace) h
  have hne : Space.interPrefix sec d.fullSpace ≠ [] := fun h0 => by simp [h0] at hp
  have hi : Space.isEmpty (Space.inter sec d.fullSpace) = true := by
    simp only [Space.inter, hp, if_true]
    exact (Space.isEmpty_iff _).2 (Space.not_mem_clear hne)
  simp [SpaceDivision.assignSection, hi]

/-- A division's envelope of a label lies within its bounding space. -/
theorem getEnvelope_within {F : Space} {d : SpaceDivision Nat} (hw : SpaceDivision.Wf F d)
    (a : Nat) : Within F (d.getEnvelope a) := by
  unfold SpaceDivision.getEnvelope
  split
  · rw [hw.full]; exact within_clear F
  · rename_i s rest hl
    have hmem : ∀ t ∈ s :: rest, Within F t := fun t ht => by
      rw [← hl] at ht
      obtain ⟨p, hp, rfl⟩ := List.mem_map.1 ht
      have hp := (List.mem_filter.1 hp).1
      exact within_of_inside (hw.nonempty _ hp) (hw.inside _ hp)
    exact within_foldl_union rest (hmem s (List.mem_cons_self _ _))
      fun t ht => hmem t (List.mem_cons_of_mem _ ht)

section Prune

variable {P : Nat → Port}

/-- The first port of the vector holding the cell `x`: the label the first loop of
`PrunePortList` leaves on it. -/
def holder (P : Nat → Port) (ports : List Nat) (x : List Int) : Option Nat :=
  ports.find? fun i => (P i).isValid && decide (Space.Mem (P i).position x)

theorem holder_cons (i : Nat) (ports : List Nat) (x : List Int) :
    holder P (i :: ports) x =
      if (P i).isValid ∧ Space.Mem (P i).position x then some i else holder P ports x := by
  simp only [holder, List.find?_cons, Bool.and_eq_true, decide_eq_true_eq]
  split <;> split_ifs <;> simp_all

theorem holder_of_covered {ports : List Nat} {x : List Int} (h : Covered P ports x) :
    ∃ i, holder P ports x = some i := by
  obtain ⟨j, hj, hv, hx⟩ := h
  refine Option.ne_none_iff_exists'.1 fun hn => ?_
  exact List.find?_eq_none.1 hn j hj (by simp [hv, hx])

theorem holder_some {ports : List Nat} {x : List Int} {i : Nat} (h : holder P ports x = some i) :
    i ∈ ports ∧ (P i).isValid ∧ Space.Mem (P i).position x := by
  have := List.find?_some h
  simp only [Bool.and_eq_true, decide_eq_true_eq] at this
  exact ⟨List.mem_of_find?_eq_some h, this⟩

/-- The division built by the first loop of `PrunePortList` is well formed and labels each cell
of `F` with its holder. -/
theorem assignPorts_spec {F : Space} : ∀ {ports : List Nat}, Inside P F ports →
    SpaceDivision.Wf F (assignPorts P F ports) ∧
      SpaceDivision.Represents F (assignPorts P F ports) (holder P ports)
  | [], _ => ⟨SpaceDivision.wf_empty F, SpaceDivision.represents_empty F⟩
  | i :: ports, hin => by
    obtain ⟨hw, hr⟩ := assignPorts_spec fun j hj => hin j (List.mem_cons_of_mem _ hj)
    have hstep : assignPorts P F (i :: ports) =
        if (P i).isValid then (assignPorts P F ports).assignSection (P i).position i
        else assignPorts P F ports := rfl
    rw [hstep]
    by_cases hv : (P i).isValid
    · rw [if_pos hv]
      cases hemp : Space.isEmpty (P i).position
      · obtain ⟨x, hx⟩ := Space.exists_mem_of_isEmpty_false hemp
        have hs : (P i).position.length = F.length := (Space.length_of_mem hx).symm.trans
          (Space.length_of_mem (hin i (List.mem_cons_self _ _) hv x hx))
        exact ⟨hw.assignSection hs i,
          (hr.assignSection hw hs i).congr fun x _ => by simp [holder_cons, hv]⟩
      · rw [assignSection_of_isEmpty _ hemp]
        exact ⟨hw, hr.congr fun x _ => by
          simp [holder_cons, (Space.isEmpty_iff _).1 hemp x]⟩
    · rw [if_neg hv]
      exact ⟨hw, hr.congr fun x _ => by simp [holder_cons, hv]⟩

/-- Updating the entries of a list of distinct numbers one after another, each from its own old
value. -/
theorem foldl_update {β : Type} (g : Nat → β → β) : ∀ {l : List Nat} (Q : Nat → β), l.Nodup →
    l.foldl (fun Q j => Function.update Q j (g j (Q j))) Q = fun j => if j ∈ l then g j (Q j) else Q j
  | [], _, _ => by simp
  | i :: l, Q, hnd => by
    obtain ⟨hi, hnd⟩ := List.nodup_cons.1 hnd
    rw [List.foldl_cons, foldl_update g _ hnd]
    funext j
    by_cases hj : j = i
    · subst hj; simp [hi]
    · simp only [Function.update_noteq hj, List.mem_cons, hj, false_or]

theorem prunePortList_eq {i : Nat} {ports : List Nat} (hnd : (i :: ports).Nodup) :
    prunePortList P (i :: ports) = fun j =>
      if j ∈ i :: ports then shrink (assignPorts P (Space.ofDims (P i).bufferDims) (i :: ports)) j (P j)
      else P j :=
  foldl_update _ P hnd

theorem prunePortList_frame {ports : List Nat} (hnd : ports.Nodup) {j : Nat} (hj : j ∉ ports) :
    prunePortList P ports j = P j := by
  cases ports with
  | nil => rfl
  | cons i ports => simp [prunePortList_eq hnd, hj]

/-- Pruning leaves every valid port a non-empty box within the buffer and hands every cell a valid
port held to a port whose new Position still holds it. -/
theorem prunePortList_spec {dims : List Nat} {ports : List Nat} (hnd : ports.Nodup)
    (hdims : ∀ i ∈ ports, (P i).bufferDims = dims) (hin : Inside P (Space.ofDims dims) ports) :
    Good (prunePortList P ports) (Space.ofDims dims) ports ∧
      ∀ x, Covered P ports x → Covered (prunePortList P ports) ports x := by
  cases ports with
  | nil => exact ⟨fun _ h => absurd h (List.not_mem_nil _), fun _ ⟨_, h, _⟩ => absurd h (List.not_mem_nil _)⟩
  | cons i0 ports =>
    rw [prunePortList_eq hnd, hdims i0 (List.mem_cons_self _ _)]
    obtain ⟨hw, hr⟩ := assignPorts_spec hin
    refine ⟨fun j hj hv => ?_, fun x hc => ?_⟩
    · simp only [hj, if_true, shrink] at hv ⊢
      split_ifs at hv ⊢ with h1 h2
      · simp at hv
      · exact ⟨by simpa using h2, getEnvelope_within hw j⟩
      · exact absurd hv h1
    · obtain ⟨j, hj, hvj, hxj⟩ := hc
      obtain ⟨i, hi⟩ := holder_of_covered ⟨j, hj, hvj, hxj⟩
      have hcov := (hr x i).2 ⟨hin j hj hvj x hxj, hi⟩
      have henv := ((hw.isEnvelope i).1 ⟨x, hcov⟩).1 x hcov
      have hne := Bool.eq_false_iff.2 fun h => (Space.isEmpty_iff _).1 h x henv
      obtain ⟨him, hiv, -⟩ := holder_some hi
      exact ⟨i, him, by simp [him, shrink, hiv, hne, henv]⟩

end Prune

/-- The number of valid ports in the vector. -/
def validCount (P : Nat → Port) (ports : List Nat) : Nat := ports.countP fun i => (P i).isValid

section Round

variable {P0 P : Nat → Port} {ports : List Nat}

/-- An option joins two distinct valid ports of the vector into their bounding union. -/
theorem mem_findMergeOptions (hnd : ports.Nodup) {o : MergeInfo}
    (ho : o ∈ findMergeOptions P0 ports) :
    o.port1 ∈ ports ∧ o.port2 ∈ ports ∧ o.port1 ≠ o.port2 ∧ (P0 o.port1).isValid ∧
      (P0 o.port2).isValid ∧
      o.resultingPos = Space.union (P0 o.port2).position (P0 o.port1).position := by
  simp only [findMergeOptions, List.mem_flatMap] at ho
  obtain ⟨⟨k, i1⟩, he, ho⟩ := ho
  obtain ⟨hk, h1⟩ := List.mem_enum he
  simp only at ho
  split_ifs at ho with hv1
  · obtain ⟨i2, hi2, rfl⟩ := List.mem_map.1 ho
    obtain ⟨hi2, hv2⟩ := List.mem_filter.1 hi2
    obtain ⟨j, hj, rfl⟩ := List.mem_take_iff_getElem.1 hi2
    have hjk : j < k := lt_of_lt_of_le hj (min_le_left _ _)
    refine ⟨List.getElem_mem _, h1 ▸ List.getElem_mem _, fun h => ?_, hv2, hv1, rfl⟩
    have h' : ports[j] = ports[k] := h.trans h1
    exact absurd ((hnd.getElem_inj_iff).1 h') (by omega)
  · exact absurd ho (List.not_mem_nil _)

@[simp] theorem isValid_applyMerge (o : MergeInfo) (j : Nat) :
    (applyMerge P o j).isValid = ((P j).isValid && j ≠ o.port2) := by
  simp only [applyMerge, Function.update_apply]
  split_ifs <;> simp_all

theorem position_applyMerge {o : MergeInfo} (hne : o.port1 ≠ o.port2) :
    (applyMerge P o o.port1).position = o.resultingPos := by
  simp [applyMerge, Function.update_apply, hne]

theorem applyMerge_other {o : MergeInfo} {j : Nat} (h1 : j ≠ o.port1) (h2 : j ≠ o.port2) :
    applyMerge P o j = P j := by
  simp [applyMerge, Function.update_apply, h1, h2]

/-- A merge invalidates its second port and no other. -/
theorem validCount_applyMerge {o : MergeInfo} (h2 : o.port2 ∈ ports) (hv : (P o.port2).isValid) :
    validCount (applyMerge P o) ports + 1 ≤ validCount P ports := by
  obtain ⟨s, t, rfl⟩ := List.mem_iff_append.1 h2
  have hle : ∀ l : List Nat, validCount (applyMerge P o) l ≤ validCount P l := fun l =>
    List.countP_mono_left fun j _ => by simp only [isValid_applyMerge, Bool.and_eq_true]; exact And.left
  have h0 : (applyMerge P o o.port2).isValid = false := by simp
  have hs := hle s
  have ht := hle t
  simp only [validCount, List.countP_append, List.countP_cons, h0, hv] at hs ht ⊢
  simp only [Bool.false_eq_true, if_false, if_true]
  omega

/-- What a round keeps of the ports at its start `P0`, for the ports `merged` it merged so far:
the others are untouched, the merged ones belong to the vector, and a performed merge
invalidated a port. -/
structure Round (P0 : Nat → Port) (ports : List Nat) (P : Nat → Port) (merged : List Nat)
    (performed : Bool) : Prop where
  frame : ∀ i, i ∉ merged → P i = P0 i
  sub : ∀ i ∈ merged, i ∈ ports
  count : validCount P ports + (if performed then 1 else 0) ≤ validCount P0 ports

/-- What a round keeps of the data: valid ports stay non-empty boxes within `F`, and every cell
held at the start is held still. -/
structure Keeps (F : Space) (P0 : Nat → Port) (ports : List Nat) (P : Nat → Port) : Prop where
  good : Good P F ports
  covers : ∀ x, Covered P0 ports x → Covered P ports x

theorem Round.applyMerge {merged : List Nat} {b : Bool} (h : Round P0 ports P merged b)
    (hnd : ports.Nodup) {o : MergeInfo} (ho : o ∈ findMergeOptions P0 ports)
    (h2 : o.port2 ∉ merged) :
    Round P0 ports (applyMerge P o) (o.port1 :: o.port2 :: merged) true := by
  obtain ⟨hp1, hp2, -, -, hv2, -⟩ := mem_findMergeOptions hnd ho
  refine ⟨fun i hi => ?_, fun i hi => ?_, ?_⟩
  · simp only [List.mem_cons, not_or] at hi
    rw [applyMerge_other hi.1 hi.2.1, h.frame i hi.2.2]
  · rcases List.mem_cons.1 hi with rfl | hi
    · exact hp1
    rcases List.mem_cons.1 hi with rfl | hi
    · exact hp2
    · exact h.sub i hi
  · have := validCount_applyMerge (P := P) hp2 (by rw [h.frame _ h2]; exact hv2)
    have := h.count
    split_ifs at this <;> simp only [if_true] <;> omega

theorem Keeps.applyMerge {F : Space} {merged : List Nat} {b : Bool} (hk : Keeps F P0 ports P)
    (hg : Good P0 F ports) (h : Round P0 ports P merged b) (hnd : ports.Nodup) {o : MergeInfo}
    (ho : o ∈ findMergeOptions P0 ports) (h1 : o.port1 ∉ merged) (h2 : o.port2 ∉ merged) :
    Keeps F P0 ports (MergePorts.applyMerge P o) := by
  obtain ⟨hp1, hp2, hne, hv1, hv2, hpos⟩ := mem_findMergeOptions hnd ho
  obtain ⟨hn1, hw1⟩ := hg _ hp1 hv1
  obtain ⟨hn2, hw2⟩ := hg _ hp2 hv2
  have hunion : ∀ x, Space.Mem (P o.port1).position x ∨ Space.Mem (P o.port2).position x →
      Space.Mem (MergePorts.applyMerge P o o.port1).position x := fun x hx => by
    rw [position_applyMerge hne, hpos]
    rw [h.frame _ h1, h.frame _ h2] at hx
    exact Space.mem_union_of_mem hn2 hn1 (hw2.length_eq.symm.trans hw1.length_eq) x hx.symm
  have hv1' : (MergePorts.applyMerge P o o.port1).isValid := by
    simp [h.frame _ h1, hv1, hne]
  refine ⟨fun j hj hv => ?_, fun x hx => ?_⟩
  · simp only [isValid_applyMerge, Bool.and_eq_true, decide_eq_true_eq] at hv
    by_cases hj1 : j = o.port1
    · subst hj1
      rw [position_applyMerge hne, hpos]
      exact ⟨Space.union_nonempty hn2 hn1, within_union hw2 hw1⟩
    · rw [applyMerge_other hj1 hv.2]
      exact hk.good j hj hv.1
  · obtain ⟨j, hj, hvj, hxj⟩ := hk.covers x hx
    by_cases hj1 : j = o.port1
    · subst hj1; exact ⟨_, hp1, hv1', hunion x (.inl hxj)⟩
    by_cases hj2 : j = o.port2
    · subst hj2; exact ⟨_, hp1, hv1', hunion x (.inr hxj)⟩
    · exact ⟨j, hj, by rwa [applyMerge_other hj1 hj2], by rwa [applyMerge_other hj1 hj2]⟩

/-- The option loop of a round keeps `Round`, and `Keeps` for every bounding space the round's
ports started good in. -/
theorem performMerges_spec (limits : List Int) (hnd : ports.Nodup) :
    ∀ (options : List MergeInfo) (P : Nat → Port) (performed : Option MergeInfo)
      (merged : List Nat), (∀ o ∈ options, o ∈ findMergeOptions P0 ports) →
      Round P0 ports P merged performed.isSome →
      (∀ F, Good P0 F ports → Keeps F P0 ports P) →
      ∃ merged', Round P0 ports (performMerges limits options P performed merged).1 merged'
          (performMerges limits options P performed merged).2.isSome ∧
        ∀ F, Good P0 F ports → Keeps F P0 ports (performMerges limits options P performed merged).1
  | [], _, _, merged, _, h, hk => ⟨merged, h, hk⟩
  | o :: options, P, performed, merged, hopt, h, hk => by
    have hrest : ∀ o' ∈ options, o' ∈ findMergeOptions P0 ports :=
      fun o' ho' => hopt o' (List.mem_cons_of_mem _ ho')
    simp only [performMerges]
    split_ifs with hbreak helig
    · exact ⟨merged, h, hk⟩
    · have ho := hopt o (List.mem_cons_self _ _)
      simp only [eligible, Bool.and_eq_true, Bool.not_eq_true', Bool.or_eq_false_iff] at helig
      have h1 : o.port1 ∉ merged := by simpa using helig.1.1.1
      have h2 : o.port2 ∉ merged := by simpa using helig.1.1.2
      exact performMerges_spec limits hnd options _ _ _ hrest (h.applyMerge hnd ho h2)
        fun F hg => (hk F hg).applyMerge hg h hnd ho h1 h2
    · exact performMerges_spec limits hnd options _ _ _ hrest h hk

end Round

theorem validCount_le_length (P : Nat → Port) (ports : List Nat) :
    validCount P ports ≤ ports.length :=
  List.countP_le_length _

/-- With more rounds than valid ports, `MergePortList` returns; it only writes ports of the
vector, and from good ports it keeps every cell and every port a good box. -/
theorem mergePortList_spec (addr : Nat → Nat) (limits : List Int) :
    ∀ (fuel : Nat) (P : Nat → Port) (ports : List Nat), ports.Nodup → validCount P ports < fuel →
      ∃ P', mergePortList addr limits fuel P ports = some P' ∧ (∀ i ∉ ports, P' i = P i) ∧
        ∀ F, Good P F ports → Good P' F ports ∧ ∀ x, Covered P ports x → Covered P' ports x
  | 0, _, _, _, hf => absurd hf (Nat.not_lt_zero _)
  | fuel + 1, P, ports, hnd, hf => by
    obtain ⟨merged, hr, hk⟩ := performMerges_spec limits hnd (findMergeOptions P ports)
      P none [] (fun _ h => h) ⟨fun _ _ => rfl, fun _ h => absurd h (List.not_mem_nil _), le_refl _⟩
      fun _ hg => ⟨hg, fun _ h => h⟩
    have hframe : ∀ i ∉ ports, (performMerges limits (findMergeOptions P ports) P none []).1 i = P i :=
      fun i hi => hr.frame i fun hm => hi (hr.sub i hm)
    simp only [mergePortList]
    split
    · rename_i P1 hm
      rw [hm] at hframe hk
      exact ⟨P1, rfl, hframe, fun F hg => ⟨(hk F hg).good, (hk F hg).covers⟩⟩
    · rename_i P1 o hm
      rw [hm] at hframe hk hr
      have hperm := List.perm_insertionSort (fun i j => addr i ≤ addr j) ports
      have hmem : ∀ i, i ∈ ports.insertionSort (fun i j => addr i ≤ addr j) ↔ i ∈ ports :=
        fun i => hperm.mem_iff
      have hcount := hr.count
      simp only [Option.isSome_some, if_true] at hcount
      have hsorted : validCount P1 (ports.insertionSort fun i j => addr i ≤ addr j) =
          validCount P1 ports := hperm.countP_eq _
      obtain ⟨P2, h2, hframe2, hk2⟩ := mergePortList_spec addr limits fuel P1 _
        (hperm.nodup_iff.2 hnd) (by omega)
      refine ⟨P2, h2, fun i hi => (hframe2 i ((not_congr (hmem i)).2 hi)).trans (hframe i hi),
        fun F hg => ?_⟩
      have hg2 := hk2 F ((good_congr hmem).2 (hk F hg).good)
      refine ⟨(good_congr hmem).1 hg2.1, fun x hx => ?_⟩
      have hc := (hk F hg).covers x hx
      exact (covered_congr hmem (fun _ _ => ⟨rfl, rfl⟩) x).1
        (hg2.2 x ((covered_congr hmem (fun _ _ => ⟨rfl, rfl⟩) x).2 hc))

/-- `MergeByBuffers` on one buffer's vector returns, writes only the ports of the vector, and
when the vector's Positions lie in `Space(*BufferDims)` keeps every cell and every valid Position
in it. -/
theorem mergeBuffer_spec (addr : Nat → Nat) (outputs : Bool) (limits : List Int) (P : Nat → Port)
    {ports : List Nat} (hnd : ports.Nodup) :
    ∃ P', mergeBuffer addr outputs limits P ports = some P' ∧ (∀ i ∉ ports, P' i = P i) ∧
      ∀ dims : List Nat, (∀ i ∈ ports, (P i).bufferDims = dims) →
        Inside P (Space.ofDims dims) ports →
        (∀ x, Covered P ports x → Covered P' ports x) ∧ Inside P' (Space.ofDims dims) ports := by
  unfold mergeBuffer
  by_cases hlen : 1 < ports.length
  · rw [if_pos hlen]
    dsimp only
    obtain ⟨seq, hseq, hperm⟩ : ∃ seq, (if outputs then ports.reverse else ports) = seq ∧
        seq.Perm ports := ⟨_, rfl, by split <;> simp [List.reverse_perm]⟩
    rw [hseq]
    have hmem : ∀ i, i ∈ seq ↔ i ∈ ports := fun i => hperm.mem_iff
    have hnd' := hperm.nodup_iff.2 hnd
    obtain ⟨P', h, hframe, hk⟩ := mergePortList_spec addr _ (seq.length + 1) (prunePortList P seq)
      seq hnd' (Nat.lt_succ_of_le (validCount_le_length _ _))
    refine ⟨P', h, fun i hi => (hframe i ((not_congr (hmem i)).2 hi)).trans
      (prunePortList_frame hnd' ((not_congr (hmem i)).2 hi)), fun dims hdims hin => ?_⟩
    have same : ∀ (Q : Nat → Port) i, i ∈ seq →
        (Q i).isValid = (Q i).isValid ∧ (Q i).position = (Q i).position := fun _ _ _ => ⟨rfl, rfl⟩
    obtain ⟨hg, hc⟩ := prunePortList_spec hnd' (fun i hi => hdims i ((hmem i).1 hi))
      ((inside_congr hmem (same P)).2 hin)
    obtain ⟨hg', hc'⟩ := hk _ hg
    exact ⟨fun x hx => (covered_congr hmem (same P') x).1
        (hc' x (hc x ((covered_congr hmem (same P) x).2 hx))),
      (inside_congr hmem (same P')).1 hg'.inside⟩
  · rw [if_neg hlen]
    exact ⟨P, rfl, fun _ _ => rfl, fun _ _ hin => ⟨fun _ h => h, hin⟩⟩

section Group

variable {grp : List Port}

theorem mem_bufferPorts {b i : Nat} :
    i ∈ bufferPorts grp b ↔ i < grp.length ∧ (portAt grp i).connected ∧ (portAt grp i).buffer = b := by
  simp [bufferPorts]

theorem nodup_bufferPorts (grp : List Port) (b : Nat) : (bufferPorts grp b).Nodup := (List.nodup_range _).filter _

theorem bufferPorts_eq_nil {b : Nat} (hb : b ∉ buffers grp) : bufferPorts grp b = [] :=
  List.eq_nil_iff_forall_not_mem.2 fun i hi => hb <| by
    obtain ⟨hlt, hc, rfl⟩ := mem_bufferPorts.1 hi
    simp only [buffers, List.mem_dedup, List.mem_map, List.mem_filter, List.mem_range]
    exact ⟨i, ⟨hlt, hc⟩, rfl⟩

/-- The buffer loop of `MergeByBuffers` returns; it leaves the ports of no visited buffer
untouched, and gives each visited buffer the guarantee of `mergeBuffer_spec` for the ports it
started from, the vectors of two buffers being disjoint. -/
theorem foldlM_mergeBuffer (grp : List Port) (addr : Nat → Nat) (outputs : Bool) (limits : List Int) :
    ∀ (bs : List Nat) (Q : Nat → Port), bs.Nodup →
      ∃ Q', bs.foldlM (fun P b => mergeBuffer addr outputs limits P (bufferPorts grp b)) Q = some Q' ∧
        (∀ i, (∀ b ∈ bs, i ∉ bufferPorts grp b) → Q' i = Q i) ∧
        ∀ b ∈ bs, ∀ dims : List Nat, (∀ i ∈ bufferPorts grp b, (Q i).bufferDims = dims) →
          Inside Q (Space.ofDims dims) (bufferPorts grp b) →
          (∀ x, Covered Q (bufferPorts grp b) x → Covered Q' (bufferPorts grp b) x) ∧
            Inside Q' (Space.ofDims dims) (bufferPorts grp b)
  | [], Q, _ => ⟨Q, rfl, fun _ _ => rfl, fun _ h => absurd h (List.not_mem_nil _)⟩
  | b :: bs, Q, hnd => by
    obtain ⟨hb, hnd⟩ := List.nodup_cons.1 hnd
    obtain ⟨Q1, h1, hframe1, hk1⟩ :=
      mergeBuffer_spec addr outputs limits Q (nodup_bufferPorts grp b)
    obtain ⟨Q', h', hframe', hk'⟩ := foldlM_mergeBuffer grp addr outputs limits bs Q1 hnd
    have hdisj : ∀ i ∈ bufferPorts grp b, ∀ b' ∈ bs, i ∉ bufferPorts grp b' := fun i hi b' hb' hi' =>
      hb ((mem_bufferPorts.1 hi).2.2.symm.trans (mem_bufferPorts.1 hi').2.2 ▸ hb')
    refine ⟨Q', by simp [h1, h'], fun i hi => ?_, fun b' hb' dims hdims hin => ?_⟩
    · rw [hframe' i fun b' hb' => hi b' (List.mem_cons_of_mem _ hb'),
        hframe1 i (hi b (List.mem_cons_self _ _))]
    rcases List.mem_cons.1 hb' with rfl | hb'
    · have hsame := same_of_eq fun i hi => (hframe' i (hdisj i hi)).symm
      obtain ⟨hc, hin'⟩ := hk1 dims hdims hin
      exact ⟨fun x hx => (covered_congr (fun _ => Iff.rfl) hsame x).1 (hc x hx),
        (inside_congr (fun _ => Iff.rfl) hsame).1 hin'⟩
    · have hsame := same_of_eq fun i hi => hframe1 i fun hi' => hdisj i hi' b' hb' hi
      obtain ⟨hc, hin'⟩ := hk' b' hb' dims (fun i hi => by rw [hframe1 i fun hi' => hdisj i hi' b' hb' hi]; exact hdims i hi)
        ((inside_congr (fun _ => Iff.rfl) hsame).2 hin)
      exact ⟨fun x hx => hc x ((covered_congr (fun _ => Iff.rfl) hsame x).2 hx), hin'⟩

end Group

/-- Two overlapping loads of one interface on a buffer of four elements. -/
def twoLoads : List Port :=
  [⟨some 0, [⟨0, 2, by decide⟩], [4], 4, 0, true⟩, ⟨some 0, [⟨1, 4, by decide⟩], [4], 4, 0, true⟩]

example : (mergeByBuffers twoLoads id false [0]).map (·.map fun p => (p.isValid, p.position)) =
    some [(true, [⟨0, 4, by decide⟩]), (false, [⟨2, 4, by decide⟩])] := by
  decide

end MergePorts

end Ladybirds
