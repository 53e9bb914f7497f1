import Ladybirds.SpaceDivision

/-! # Checking the inputs of an interface

`CheckIfaceInput` labels a whole interface with a dummy in a space division and assigns the `To`
index of each incoming dependency in turn, reporting every earlier section the index overlaps and
what is left of the dummy as unconnected. For `To` anchors that fit the interface, as those of the
program do, the check succeeds exactly when the indices partition the interface.
-/

namespace Ladybirds

/-- An index of an interface with dimensions `dims`: one non-empty range per dimension, inside
`[0, d)`. -/
def Space.Fits (s : Space) (dims : List Int) : Prop :=
  List.Forall₂ (fun (r : Range) (d : Int) => 0 ≤ r.lo ∧ r.lo < r.hi ∧ r.hi ≤ d) s dims

namespace BufferPreallocation

open SpaceDivision

/-- An error `CheckIfaceInput` reports: two incoming dependencies on the same cells (the earlier
one, whose section the later one overlaps, the later one, and the intersection of their indices),
an interface without any input, or a part of one without input. -/
inductive InputError
  | overlapping (earlier later : Nat) (index : Space)
  | unconnectedIface
  | unconnected (index : Space)
  deriving DecidableEq, Repr

/-- One in-edge in the loop of `CheckIfaceInput`: the overlaps of dependency `e.1` with the
sections of earlier dependencies, then its index assigned to it. `deps` gives the indices of the
earlier dependencies for the messages. -/
def inputStep (deps : List Space) (acc : SpaceDivision (Option Nat) × List InputError)
    (e : Nat × Space) : SpaceDivision (Option Nat) × List InputError :=
  (acc.1.assignSection e.2 (some e.1), acc.2 ++ (acc.1.findOverlaps e.2).filterMap fun p =>
    p.1.map fun i => .overlapping i e.1 (Space.inter (deps.getD i []) e.2))

/-- The division and errors before the loop: the dummy on the whole interface. -/
def initInput (F : Space) : SpaceDivision (Option Nat) × List InputError :=
  ((empty F).assignSection F none, [])

/-- `CheckIfaceInput` for an interface of dimensions `dims` whose incoming dependencies have, in
the order of `InEdges()`, the `To` indices `deps`: the result and the errors reported. -/
def checkIfaceInput (dims : List Nat) (deps : List Space) : Bool × List InputError :=
  let F := Space.ofDims dims
  let r := deps.enum.foldl (inputStep deps) (initInput F)
  match r.1.sections.filter (·.1 = none) with
  | [] => (r.2.isEmpty, r.2)
  | d :: ds =>
    (false, r.2 ++ if d.2 = F then [.unconnectedIface] else (d :: ds).map (.unconnected ·.2))

/-- The label the loop leaves on cell `x` after the dependencies `pre`: the last one whose index
holds `x`, else the dummy on the interface `F`. -/
def inputLabels (F : Space) (pre : List Space) : List Int → Option (Option Nat) :=
  pre.enum.foldl (fun f e x => if Space.Mem e.2 x then some (some e.1) else f x)
    fun x => if Space.Mem F x then some none else none

section Labels

variable {F : Space} {pre : List Space} {x : List Int}

theorem inputLabels_snoc (s : Space) :
    inputLabels F (pre ++ [s]) x = if Space.Mem s x then some (some pre.length) else inputLabels F pre x := by
  simp [inputLabels, List.enum_append]

theorem inputLabels_eq_some_none :
    inputLabels F pre x = some none ↔ Space.Mem F x ∧ ∀ s ∈ pre, ¬ Space.Mem s x := by
  induction pre using List.reverseRecOn with
  | nil => by_cases h : Space.Mem F x <;> simp [inputLabels, h]
  | append_singleton pre s ih =>
    rw [inputLabels_snoc]
    by_cases h : Space.Mem s x
    · simp only [if_pos h, Option.some.injEq, reduceCtorEq, false_iff, not_and]
      exact fun _ hall => hall s (List.mem_append_right pre (List.mem_singleton_self s)) h
    · rw [if_neg h, ih]
      simp [or_imp, forall_and, h]

theorem inputLabels_eq_some_some {i : Nat} (h : inputLabels F pre x = some (some i)) :
    ∃ s, pre[i]? = some s ∧ Space.Mem s x := by
  induction pre using List.reverseRecOn generalizing i with
  | nil => by_cases hF : Space.Mem F x <;> simp [inputLabels, hF] at h
  | append_singleton pre s ih =>
    rw [inputLabels_snoc] at h
    split_ifs at h with hs
    · cases h
      exact ⟨s, by simp, hs⟩
    · obtain ⟨t, ht, hx⟩ := ih h
      exact ⟨t, by rw [List.getElem?_append_left (List.getElem?_eq_some_iff.1 ht).1, ht], hx⟩

theorem exists_inputLabels_eq_some (h : ∃ s ∈ pre, Space.Mem s x) :
    ∃ i, inputLabels F pre x = some (some i) := by
  induction pre using List.reverseRecOn with
  | nil => simp at h
  | append_singleton pre s ih =>
    rw [inputLabels_snoc]
    by_cases hs : Space.Mem s x
    · exact ⟨_, if_pos hs⟩
    · rw [if_neg hs]
      obtain ⟨t, ht, hx⟩ := h
      exact ih ⟨t, (List.mem_append.1 ht).resolve_right fun h => hs (List.mem_singleton.1 h ▸ hx), hx⟩

end Labels

/-- An anchor that fits an interface of dimensions `dims` is a non-empty box of its cells. -/
theorem fits_ofDims {dims : List Nat} : ∀ {s : Space}, s.Fits (dims.map fun d : Nat => (d : Int)) →
    s.length = (Space.ofDims dims).length ∧ Space.isEmpty s = false ∧
      ∀ x, Space.Mem s x → Space.Mem (Space.ofDims dims) x := by
  induction dims with
  | nil => intro s h; cases h; exact ⟨rfl, rfl, fun _ h => h⟩
  | cons d dims ih =>
    intro s h
    cases h with
    | cons hr h =>
      dsimp only at hr
      obtain ⟨hl, hne, hin⟩ := ih h
      refine ⟨by simpa [Space.ofDims] using hl, ?_, ?_⟩
      · simp only [Space.isEmpty_cons, hne, Bool.or_false, Range.isEmpty, decide_eq_false_iff_not]
        omega
      · rintro (_ | ⟨i, x⟩) hx
        · exact hx.elim
        · rw [Space.cons_mem_cons] at hx
          refine ⟨?_, hin x hx.2⟩
          have := hx.1
          simp only [Range.mem_def, Range.beginCount] at this ⊢
          omega

/-- What the loop keeps after the dependencies `pre`: the division is well formed and holds the
labels `inputLabels`, no error was reported exactly when the indices so far are disjoint, and
each dependency that meets an earlier one was reported. -/
structure InputInv (F : Space) (pre : List Space)
    (st : SpaceDivision (Option Nat) × List InputError) : Prop where
  wf : Wf F st.1
  labels : Represents F st.1 (inputLabels F pre)
  clean : st.2 = [] ↔ pre.Pairwise fun s t => ∀ x, Space.Mem s x → ¬ Space.Mem t x
  reported : ∀ (i j : Nat) (s t : Space), i < j → pre[i]? = some s → pre[j]? = some t →
    (∃ x, Space.Mem s x ∧ Space.Mem t x) → ∃ k idx, InputError.overlapping k j idx ∈ st.2

section Loop

variable {F : Space} {deps pre : List Space} {sd : SpaceDivision (Option Nat)} {s : Space}

theorem inputInv_init (F : Space) : InputInv F [] (initInput F) where
  wf := (wf_empty F).assignSection rfl none
  labels := ((represents_empty F).assignSection (wf_empty F) rfl none).congr fun _ _ => rfl
  clean := by simp [initInput]
  reported i j s t _ _ ht := by simp at ht

/-- The overlaps a dependency is reported for: none exactly when its index shares no cell with
an earlier one. -/
theorem overlapErrors_eq_nil (hw : Wf F sd) (hr : Represents F sd (inputLabels F pre))
    (hl : s.length = F.length) (hne : Space.isEmpty s = false)
    (hin : ∀ x, Space.Mem s x → Space.Mem F x) (deps : List Space) (j : Nat) :
    ((sd.findOverlaps s).filterMap fun p =>
        p.1.map fun i => InputError.overlapping i j (Space.inter (deps.getD i []) s)) = [] ↔
      ∀ t ∈ pre, ∀ x, Space.Mem t x → ¬ Space.Mem s x := by
  rw [List.filterMap_eq_nil_iff]
  constructor
  · intro h t ht x hxt hxs
    have : ∃ i, inputLabels F pre x = some (some i) := exists_inputLabels_eq_some ⟨t, ht, hxt⟩
    obtain ⟨i, hi⟩ := this
    obtain ⟨u, hu, hxu⟩ := (hr x (some i)).2 ⟨hin x hxs, hi⟩
    have hov : Space.overlaps u s = true := (Space.overlaps_iff (hw.nonempty _ hu) hne
      ((hw.dims _ hu).trans hl.symm)).2 ⟨x, hxu, hxs⟩
    simpa using h (some i, u) (List.mem_filter.2 ⟨hu, hov⟩)
  · intro h p hp
    obtain ⟨hp, hov⟩ := List.mem_filter.1 hp
    obtain ⟨x, hxp, hxs⟩ := (Space.overlaps_iff (hw.nonempty _ hp) hne
      ((hw.dims _ hp).trans hl.symm)).1 hov
    cases hp1 : p.1 with
    | none => rfl
    | some i =>
      have hmem : (some i, p.2) ∈ sd.sections := by rw [← hp1]; exact hp
      obtain ⟨t, ht, hxt⟩ := inputLabels_eq_some_some ((hr x (some i)).1 ⟨p.2, hmem, hxp⟩).2
      exact absurd hxs (h t (List.getElem?_mem ht) x hxt)

theorem InputInv.step {st : SpaceDivision (Option Nat) × List InputError}
    (hi : InputInv F pre st) (hl : s.length = F.length) (hne : Space.isEmpty s = false)
    (hin : ∀ x, Space.Mem s x → Space.Mem F x) :
    InputInv F (pre ++ [s]) (inputStep deps st (pre.length, s)) := by
  have hE := overlapErrors_eq_nil hi.wf hi.labels hl hne hin deps pre.length
  refine ⟨hi.wf.assignSection hl _, (hi.labels.assignSection hi.wf hl _).congr
    fun x _ => (inputLabels_snoc s).symm, ?_, ?_⟩
  · simp only [inputStep, List.append_eq_nil, hi.clean, hE, List.pairwise_append,
      List.pairwise_singleton, List.mem_singleton, forall_eq, true_and]
  · intro i j t u hij ht hu hmeet
    have hj : j < pre.length + 1 := by simpa using (List.getElem?_eq_some_iff.1 hu).1
    rcases Nat.lt_or_ge j pre.length with hj' | hj'
    · rw [List.getElem?_append_left hj'] at hu
      rw [List.getElem?_append_left (by omega)] at ht
      obtain ⟨k, idx, h⟩ := hi.reported i j t u hij ht hu hmeet
      exact ⟨k, idx, List.mem_append_left _ h⟩
    · obtain rfl : j = pre.length := by omega
      rw [List.getElem?_concat_length, Option.some.injEq] at hu
      subst hu
      rw [List.getElem?_append_left hij] at ht
      obtain ⟨x, hxt, hxs⟩ := hmeet
      obtain ⟨e, he⟩ := List.exists_mem_of_ne_nil _
        fun h => hE.1 h t (List.getElem?_mem ht) x hxt hxs
      obtain ⟨p, -, hpe⟩ := List.mem_filterMap.1 he
      obtain ⟨k, -, rfl⟩ := Option.map_eq_some'.1 hpe
      exact ⟨k, _, List.mem_append_right _ he⟩

/-- The loop over all in-edges keeps the invariant, each index fitting the interface. -/
theorem inputInv_foldl (deps : List Space) : ∀ pre : List Space, (∀ s ∈ pre, s.length = F.length ∧
    Space.isEmpty s = false ∧ ∀ x, Space.Mem s x → Space.Mem F x) →
    InputInv F pre (pre.enum.foldl (inputStep deps) (initInput F)) := by
  intro pre
  induction pre using List.reverseRecOn with
  | nil => exact fun _ => inputInv_init F
  | append_singleton pre s ih =>
    intro hfit
    obtain ⟨hl, hne, hin⟩ := hfit s (List.mem_append_right pre (List.mem_singleton_self s))
    rw [List.enum_append, List.foldl_append]
    exact (ih fun t ht => hfit t (List.mem_append_left _ ht)).step hl hne hin

end Loop

end BufferPreallocation

end Ladybirds
