import Mathlib.Data.List.Pairwise
import Ladybirds.Range

/-! # Space divisions

`gen::SpaceDivision` keeps a bounding space and a list of labelled sections. Assigning a section
carves it out of every stored section it meets, so every cell carries the label of the latest
assignment that covered it, unless that label was unassigned since.
-/

namespace Ladybirds

/-- `gen::SpaceDivision<AssignType>`: the bounding space and the stored (label, section)
entries. -/
structure SpaceDivision (A : Type) where
  fullSpace : Space
  sections : List (A × Space)

namespace SpaceDivision

variable {A : Type}

/-- `SpaceDivision(fullspace)`. -/
def empty (F : Space) : SpaceDivision A := ⟨F, []⟩

/-- The spaces `TrimSection` emplaces when `remove` is cut out of `trim`: along dimension `i`,
the parts of `trim[i]` outside `remove[i]`, with the dimensions before `i` already narrowed to
`trim[j] & remove[j]` (the loop of the source, unrolled over the dimensions). -/
def trimRanges : Space → Space → List Space
  | r :: trim, q :: remove =>
    (r.subtract q).map (fun f => f :: trim) ++ (trimRanges trim remove).map (r.inter q :: ·)
  | _, _ => []

/-- `TrimSection`: the entry is replaced by the fragments of its section outside `remove`. -/
def trimSection (p : A × Space) (remove : Space) : List (A × Space) :=
  (trimRanges p.2 remove).map (p.1, ·)

/-- `FindOverlaps`. -/
def findOverlaps (d : SpaceDivision A) (s : Space) : List (A × Space) :=
  d.sections.filter (fun p => Space.overlaps p.2 s)

/-- `AssignSection`: the section is cut to the bounding space, every stored section it overlaps
is trimmed, and the section is stored under its label. -/
def assignSection (d : SpaceDivision A) (sec : Space) (a : A) : SpaceDivision A :=
  if Space.isEmpty (Space.inter sec d.fullSpace) then d
  else ⟨d.fullSpace,
    d.sections.filter (fun p => !Space.overlaps p.2 (Space.inter sec d.fullSpace)) ++
      (d.findOverlaps (Space.inter sec d.fullSpace)).flatMap
        (trimSection · (Space.inter sec d.fullSpace)) ++
      [(a, Space.inter sec d.fullSpace)]⟩

/-- `Unassign`: every entry with this label is erased. -/
def unassign [DecidableEq A] (d : SpaceDivision A) (a : A) : SpaceDivision A :=
  ⟨d.fullSpace, d.sections.filter (fun p => p.1 ≠ a)⟩

/-- `SubDivision`: the non-empty intersections of the sections with `sub`, bounded by `sub`. -/
def subDivision (d : SpaceDivision A) (sub : Space) : SpaceDivision A :=
  ⟨sub, d.sections.filterMap fun p =>
    if Space.isEmpty (Space.inter p.2 sub) then none else some (p.1, Space.inter p.2 sub)⟩

/-- `GetEnvelope`: the bounding union of the sections with this label, or the cleared bounding
space when there is none. -/
def getEnvelope [DecidableEq A] (d : SpaceDivision A) (a : A) : Space :=
  match (d.sections.filter (fun p => p.1 = a)).map Prod.snd with
  | [] => Space.clear d.fullSpace
  | s :: rest => rest.foldl Space.union s

/-- The cell `x` lies in a stored section labelled `a`. -/
def Covers (d : SpaceDivision A) (x : List Int) (a : A) : Prop :=
  ∃ s, (a, s) ∈ d.sections ∧ Space.Mem s x

/-- The invariant of a division bounded by `F`. -/
structure Wf (F : Space) (d : SpaceDivision A) : Prop where
  full : d.fullSpace = F
  dims : ∀ p ∈ d.sections, p.2.length = F.length
  nonempty : ∀ p ∈ d.sections, Space.isEmpty p.2 = false
  inside : ∀ p ∈ d.sections, ∀ x, Space.Mem p.2 x → Space.Mem F x
  disjoint : d.sections.Pairwise fun p q => ∀ x, Space.Mem p.2 x → ¬ Space.Mem q.2 x

/-- The division stands for the labelling `f` of the cells of `F`. -/
def Represents (F : Space) (d : SpaceDivision A) (f : List Int → Option A) : Prop :=
  ∀ x a, d.Covers x a ↔ Space.Mem F x ∧ f x = some a

theorem length_trimRanges : ∀ {t q : Space}, ∀ f ∈ trimRanges t q, f.length = t.length
  | r :: t, q :: remove, f, hf => by
    simp only [trimRanges, List.mem_append, List.mem_map] at hf
    rcases hf with ⟨g, -, rfl⟩ | ⟨g, hg, rfl⟩
    · rfl
    · simp [length_trimRanges g hg]
  | [], _, _, hf => by simp [trimRanges] at hf
  | _ :: _, [], _, hf => by simp [trimRanges] at hf

/-- The fragments hold exactly the cells of `t` outside `q`. -/
theorem mem_trimRanges : ∀ {t q : Space}, t.length = q.length → ∀ x,
    (∃ f ∈ trimRanges t q, Space.Mem f x) ↔ Space.Mem t x ∧ ¬ Space.Mem q x
  | [], [], _, x => by simp [trimRanges]
  | r :: t, q :: remove, h, x => by
    have ih := @mem_trimRanges t remove (by simpa using h)
    cases x with
    | nil =>
      simp only [trimRanges, List.mem_append, List.mem_map]
      constructor
      · rintro ⟨f, (⟨g, -, rfl⟩ | ⟨g, -, rfl⟩), hx⟩ <;> exact hx.elim
      · rintro ⟨h, -⟩; exact h.elim
    | cons i y =>
      simp only [trimRanges, List.mem_append, List.mem_map, Space.cons_mem_cons]
      have hsub := @Range.mem_subtract i r q
      have ihy := ih y
      constructor
      · rintro ⟨f, (⟨g, hg, rfl⟩ | ⟨g, hg, rfl⟩), hx⟩
        · exact ⟨⟨(hsub.1 ⟨g, hg, hx.1⟩).1, hx.2⟩, fun h' => (hsub.1 ⟨g, hg, hx.1⟩).2 h'.1⟩
        · have := ihy.1 ⟨g, hg, hx.2⟩
          exact ⟨⟨(Range.mem_inter.1 hx.1).1, this.1⟩, fun h' => this.2 h'.2⟩
      · rintro ⟨⟨hi, hy⟩, hn⟩
        by_cases hq : i ∈ q
        · obtain ⟨g, hg, hgy⟩ := ihy.2 ⟨hy, fun h' => hn ⟨hq, h'⟩⟩
          exact ⟨_, Or.inr ⟨g, hg, rfl⟩, Range.mem_inter.2 ⟨hi, hq⟩, hgy⟩
        · obtain ⟨g, hg, hgi⟩ := hsub.2 ⟨hi, hq⟩
          exact ⟨_, Or.inl ⟨g, hg, rfl⟩, hgi, hy⟩
  | [], _ :: _, h, _ => by simp at h
  | _ :: _, [], h, _ => by simp at h

theorem trimRanges_pairwise : ∀ (t q : Space),
    (trimRanges t q).Pairwise fun f g => ∀ x, Space.Mem f x → ¬ Space.Mem g x
  | r :: t, q :: remove => by
    simp only [trimRanges, List.pairwise_append, List.pairwise_map, List.mem_map]
    refine ⟨(Range.subtract_pairwise r q).imp ?_, (trimRanges_pairwise t remove).imp ?_, ?_⟩
    · intro f g hfg x hx hx'
      simp only [Space.mem_cons] at hx hx'
      obtain ⟨i, y, rfl, hi, -⟩ := hx
      obtain ⟨_, _, he, hi', -⟩ := hx'
      cases he
      exact hfg i hi hi'
    · intro f g hfg x hx hx'
      simp only [Space.mem_cons] at hx hx'
      obtain ⟨i, y, rfl, -, hy⟩ := hx
      obtain ⟨_, _, he, -, hy'⟩ := hx'
      cases he
      exact hfg y hy hy'
    · rintro _ ⟨f, hf, rfl⟩ _ ⟨g, -, rfl⟩ x hx hx'
      simp only [Space.mem_cons] at hx hx'
      obtain ⟨i, y, rfl, hi, -⟩ := hx
      obtain ⟨_, _, he, hi', -⟩ := hx'
      cases he
      exact ((Range.mem_subtract).1 ⟨f, hf, hi⟩).2 (Range.mem_inter.1 hi').2
  | [], _ => by simp [trimRanges]
  | _ :: _, [] => by simp [trimRanges]

/-- Trimming a non-empty section by a section it overlaps leaves only non-empty fragments. -/
theorem trimRanges_nonempty : ∀ {t q : Space}, Space.isEmpty t = false →
    Space.isEmpty q = false → Space.overlaps t q = true →
    ∀ f ∈ trimRanges t q, Space.isEmpty f = false
  | r :: t, q :: remove, ht, hq, hov, f, hf => by
    simp only [Space.isEmpty_cons, Bool.or_eq_false_iff] at ht hq
    simp only [Space.overlaps, Bool.and_eq_true] at hov
    simp only [trimRanges, List.mem_append, List.mem_map] at hf
    rcases hf with ⟨g, hg, rfl⟩ | ⟨g, hg, rfl⟩
    · simp [Range.subtract_nonempty ht.1 g hg, ht.2]
    · simp [Range.inter_nonempty ht.1 hq.1 hov.1, trimRanges_nonempty ht.2 hq.2 hov.2 g hg]
  | [], _, _, _, _, f, hf => by simp [trimRanges] at hf
  | _ :: _, [], _, _, _, f, hf => by simp [trimRanges] at hf

/-- The entries after `AssignSection`: the untouched ones, the fragments of the trimmed ones,
and the new section. -/
theorem mem_assignSection {d : SpaceDivision A} {sec : Space} {a : A} {q : A × Space}
    (hne : Space.isEmpty (Space.inter sec d.fullSpace) = false) :
    q ∈ (d.assignSection sec a).sections ↔
      (q ∈ d.sections ∧ Space.overlaps q.2 (Space.inter sec d.fullSpace) = false) ∨
      (∃ p ∈ d.sections, Space.overlaps p.2 (Space.inter sec d.fullSpace) = true ∧
        q.1 = p.1 ∧ q.2 ∈ trimRanges p.2 (Space.inter sec d.fullSpace)) ∨
      q = (a, Space.inter sec d.fullSpace) := by
  simp only [assignSection, hne, Bool.false_eq_true, if_false, List.mem_append, List.mem_filter,
    Bool.not_eq_true', findOverlaps, List.mem_flatMap, trimSection, List.mem_map,
    List.mem_singleton]
  rw [or_assoc]
  apply or_congr_right
  apply or_congr_left
  constructor
  · rintro ⟨p, ⟨hp, hov⟩, g, hg, rfl⟩; exact ⟨p, hp, hov, rfl, hg⟩
  · rintro ⟨p, hp, hov, h1, hg⟩; exact ⟨p, ⟨hp, hov⟩, q.2, hg, by rw [← h1]⟩

@[simp] theorem fullSpace_assignSection (d : SpaceDivision A) (sec : Space) (a : A) :
    (d.assignSection sec a).fullSpace = d.fullSpace := by
  unfold assignSection
  split <;> rfl

section Invariant

variable {F : Space} {d : SpaceDivision A}

theorem Wf.disjoint_of_ne (hw : Wf F d) {p q : A × Space} (hp : p ∈ d.sections)
    (hq : q ∈ d.sections) (hpq : p ≠ q) : ∀ x, Space.Mem p.2 x → ¬ Space.Mem q.2 x :=
  hw.disjoint.forall (by intro _ _ h x hx hx'; exact h x hx' hx) hp hq hpq

/-- A stored section that `FindOverlaps` skips shares no cell with the section. -/
theorem Wf.not_mem_of_not_overlaps (hw : Wf F d) {p : A × Space} (hp : p ∈ d.sections)
    {S : Space} (hS : Space.isEmpty S = false) (hl : S.length = F.length)
    (hov : Space.overlaps p.2 S = false) (x : List Int) (hx : Space.Mem p.2 x) :
    ¬ Space.Mem S x := fun hx' => by
  rw [← Bool.not_eq_true, Space.overlaps_iff (hw.nonempty p hp) hS
    ((hw.dims p hp).trans hl.symm)] at hov
  exact hov ⟨x, hx, hx'⟩

theorem Wf.assignSection (hw : Wf F d) {sec : Space} (hs : sec.length = F.length) (a : A) :
    Wf F (d.assignSection sec a) := by
  obtain ⟨rfl, hdims, hnon, hin, hdis⟩ := hw
  have hw : Wf d.fullSpace d := ⟨rfl, hdims, hnon, hin, hdis⟩
  cases hne : Space.isEmpty (Space.inter sec d.fullSpace)
  case true => simpa [SpaceDivision.assignSection, hne] using hw
  case false =>
  have hl : (Space.inter sec d.fullSpace).length = d.fullSpace.length := by simp [hs]
  have hS := Space.mem_inter hs
  have hfrag : ∀ p ∈ d.sections, ∀ g ∈ trimRanges p.2 (Space.inter sec d.fullSpace), ∀ x,
      Space.Mem g x → Space.Mem p.2 x ∧ ¬ Space.Mem (Space.inter sec d.fullSpace) x :=
    fun p hp g hg x hx => (mem_trimRanges ((hdims p hp).trans hl.symm) x).1 ⟨g, hg, hx⟩
  refine ⟨by simp [SpaceDivision.assignSection, hne], ?_, ?_, ?_, ?_⟩
  · intro q hq
    rcases (mem_assignSection hne).1 hq with ⟨hq, -⟩ | ⟨p, hp, -, -, hg⟩ | rfl
    · exact hdims q hq
    · rw [length_trimRanges _ hg]; exact hdims p hp
    · exact hl
  · intro q hq
    rcases (mem_assignSection hne).1 hq with ⟨hq, -⟩ | ⟨p, hp, hov, -, hg⟩ | rfl
    · exact hnon q hq
    · exact trimRanges_nonempty (hnon p hp) hne hov _ hg
    · exact hne
  · intro q hq x hx
    rcases (mem_assignSection hne).1 hq with ⟨hq, -⟩ | ⟨p, hp, -, -, hg⟩ | rfl
    · exact hin q hq x hx
    · exact hin p hp x (hfrag p hp _ hg x hx).1
    · exact ((hS x).1 hx).2
  · have hkeep : ∀ k ∈ d.sections.filter (fun p => !Space.overlaps p.2 (Space.inter sec d.fullSpace)),
        k ∈ d.sections ∧ Space.overlaps k.2 (Space.inter sec d.fullSpace) = false := by
      intro k hk; simpa using hk
    have hfr : ∀ q ∈ (d.findOverlaps (Space.inter sec d.fullSpace)).flatMap
        (trimSection · (Space.inter sec d.fullSpace)), ∃ p ∈ d.sections,
        Space.overlaps p.2 (Space.inter sec d.fullSpace) = true ∧
        ∀ x, Space.Mem q.2 x → Space.Mem p.2 x ∧ ¬ Space.Mem (Space.inter sec d.fullSpace) x := by
      intro q hq
      simp only [List.mem_flatMap, findOverlaps, List.mem_filter, trimSection, List.mem_map] at hq
      obtain ⟨p, ⟨hp, hov⟩, g, hg, rfl⟩ := hq
      exact ⟨p, hp, hov, hfrag p hp g hg⟩
    simp only [SpaceDivision.assignSection, hne, Bool.false_eq_true, if_false]
    rw [List.pairwise_append, List.pairwise_append, List.pairwise_flatMap]
    refine ⟨⟨hdis.filter _, ⟨fun p _ => List.pairwise_map.2 ((trimRanges_pairwise _ _).imp id),
      ?_⟩, ?_⟩, List.pairwise_singleton _ _, ?_⟩
    · refine (hdis.filter _).imp_of_mem ?_
      intro p p' hp hp' hpp' q hq q' hq' x hx hx'
      simp only [findOverlaps, List.mem_filter] at hp hp'
      simp only [trimSection, List.mem_map] at hq hq'
      obtain ⟨g, hg, rfl⟩ := hq
      obtain ⟨g', hg', rfl⟩ := hq'
      exact hpp' x (hfrag p hp.1 g hg x hx).1 (hfrag p' hp'.1 g' hg' x hx').1
    · intro k hk q hq x hx hx'
      obtain ⟨hk, hkov⟩ := hkeep k hk
      obtain ⟨p, hp, hov, hsub⟩ := hfr q hq
      have hne' : k ≠ p := fun h => by rw [h, hov] at hkov; exact Bool.noConfusion hkov
      exact hw.disjoint_of_ne hk hp hne' x hx (hsub x hx').1
    · intro k hk q hq x hx hx'
      rw [List.mem_singleton] at hq
      subst hq
      rcases List.mem_append.1 hk with hk | hk
      · obtain ⟨hk, hkov⟩ := hkeep k hk
        exact hw.not_mem_of_not_overlaps hk hne hl hkov x hx hx'
      · obtain ⟨p, -, -, hsub⟩ := hfr k hk
        exact (hsub x hx).2 hx'

theorem Represents.assignSection (hw : Wf F d) {f : List Int → Option A}
    (hr : Represents F d f) {sec : Space} (hs : sec.length = F.length) (a : A) :
    Represents F (d.assignSection sec a) fun x => if Space.Mem sec x then some a else f x := by
  obtain ⟨rfl, hdims, hnon, hin, hdis⟩ := hw
  have hw : Wf d.fullSpace d := ⟨rfl, hdims, hnon, hin, hdis⟩
  have hS := Space.mem_inter hs
  intro x b
  cases hne : Space.isEmpty (Space.inter sec d.fullSpace)
  case true =>
    have hno : ∀ hF : Space.Mem d.fullSpace x, ¬ Space.Mem sec x :=
      fun hF h => (Space.isEmpty_iff _).1 hne x ((hS x).2 ⟨h, hF⟩)
    simp only [SpaceDivision.assignSection, hne, if_true, hr x b]
    exact and_congr_right fun hF => by rw [if_neg (hno hF)]
  case false =>
  have hl : (Space.inter sec d.fullSpace).length = d.fullSpace.length := by simp [hs]
  constructor
  · rintro ⟨t, ht, hx⟩
    rcases (mem_assignSection hne).1 ht with ⟨ht, hov⟩ | ⟨p, hp, -, h1, hg⟩ | h
    · obtain ⟨hF, hb⟩ := (hr x b).1 ⟨t, ht, hx⟩
      have hsx : ¬ Space.Mem sec x := fun h =>
        hw.not_mem_of_not_overlaps ht hne hl hov x hx ((hS x).2 ⟨h, hF⟩)
      exact ⟨hF, by simp only [if_neg hsx, hb]⟩
    · obtain ⟨hpx, hnS⟩ := (mem_trimRanges ((hdims p hp).trans hl.symm) x).1 ⟨t, hg, hx⟩
      obtain ⟨hF, hb⟩ := (hr x p.1).1 ⟨p.2, hp, hpx⟩
      have hsx : ¬ Space.Mem sec x := fun h => hnS ((hS x).2 ⟨h, hF⟩)
      exact ⟨hF, by simpa [hsx, hb] using h1.symm⟩
    · cases h
      obtain ⟨h1, h2⟩ := (hS x).1 hx
      exact ⟨h2, if_pos h1⟩
  · rintro ⟨hF, hb⟩
    by_cases hsx : Space.Mem sec x
    · simp only [if_pos hsx, Option.some_inj] at hb
      subst hb
      exact ⟨_, (mem_assignSection hne).2 (Or.inr (Or.inr rfl)), (hS x).2 ⟨hsx, hF⟩⟩
    · simp only [if_neg hsx] at hb
      obtain ⟨t, ht, hxt⟩ := (hr x b).2 ⟨hF, hb⟩
      cases hov : Space.overlaps t (Space.inter sec d.fullSpace)
      · exact ⟨t, (mem_assignSection hne).2 (Or.inl ⟨ht, hov⟩), hxt⟩
      · obtain ⟨g, hg, hgx⟩ := (mem_trimRanges ((hdims _ ht).trans hl.symm) x).2
          ⟨hxt, fun h => hsx ((hS x).1 h).1⟩
        exact ⟨g, (mem_assignSection hne).2 (Or.inr (Or.inl ⟨(b, t), ht, hov, rfl, hg⟩)), hgx⟩

theorem Wf.unassign [DecidableEq A] (hw : Wf F d) (a : A) : Wf F (d.unassign a) :=
  ⟨hw.full, fun p hp => hw.dims p (List.mem_of_mem_filter hp),
    fun p hp => hw.nonempty p (List.mem_of_mem_filter hp),
    fun p hp => hw.inside p (List.mem_of_mem_filter hp), hw.disjoint.filter _⟩

theorem Represents.unassign [DecidableEq A] {f : List Int → Option A} (hr : Represents F d f)
    (a : A) : Represents F (d.unassign a) fun x => if f x = some a then none else f x := by
  intro x b
  have hb := hr x b
  simp only [Covers, SpaceDivision.unassign, List.mem_filter, decide_eq_true_eq] at hb ⊢
  by_cases hfa : f x = some a
  · simp only [hfa, if_true, reduceCtorEq, and_false, iff_false, not_exists, not_and]
    intro t ht hx
    rw [hfa, Option.some_inj] at hb
    exact ht.2 (hb.1 ⟨t, ht.1, hx⟩).2.symm
  · rw [if_neg hfa, ← hb]
    constructor
    · rintro ⟨t, ⟨ht, -⟩, hx⟩; exact ⟨t, ht, hx⟩
    · rintro ⟨t, ht, hx⟩
      refine ⟨t, ⟨ht, fun hba => hfa ?_⟩, hx⟩
      rw [← hba]; exact (hb.1 ⟨t, ht, hx⟩).2

end Invariant

end SpaceDivision


/-- One call on a division. -/
inductive DivOp (A : Type) where
  | assignSection (s : Space) (a : A)
  | unassign (a : A)
  deriving DecidableEq

namespace DivOp

variable {A : Type}

/-- An assigned section has the dimensionality of the bounding space. -/
def DimOk (F : Space) : DivOp A → Prop
  | assignSection s _ => s.length = F.length
  | unassign _ => True

/-- What a history says of cell `x`: the last assignment whose section holds `x` is labelled
`a`, and no `unassign a` came after it. -/
def LastAssigned (ops : List (DivOp A)) (x : List Int) (a : A) : Prop :=
  ∃ pre s post, ops = pre ++ assignSection s a :: post ∧ Space.Mem s x ∧
    (∀ o ∈ post, ∀ s' b, o = assignSection s' b → ¬ Space.Mem s' x) ∧ unassign a ∉ post

theorem lastAssigned_nil (x : List Int) (a : A) : ¬ LastAssigned [] x a := by
  rintro ⟨pre, s, post, h, -⟩
  simp at h

theorem lastAssigned_snoc_assign {ops : List (DivOp A)} {s : Space} {b : A} {x : List Int}
    {a : A} : LastAssigned (ops ++ [assignSection s b]) x a ↔
      (Space.Mem s x ∧ a = b) ∨ (¬ Space.Mem s x ∧ LastAssigned ops x a) := by
  constructor
  · rintro ⟨pre, s', post, heq, hs', hpost, hun⟩
    rcases List.eq_nil_or_concat post with rfl | ⟨L, y, rfl⟩
    · obtain ⟨rfl, h⟩ := List.append_inj' heq rfl
      simp only [List.cons.injEq, assignSection.injEq, and_true] at h
      obtain ⟨rfl, rfl⟩ := h
      exact Or.inl ⟨hs', rfl⟩
    · rw [List.concat_eq_append, ← List.cons_append, ← List.append_assoc] at heq
      obtain ⟨rfl, h⟩ := List.append_inj' heq rfl
      simp only [List.cons.injEq, and_true] at h
      subst h
      refine Or.inr ⟨hpost _ (by simp) s b rfl, pre, s', L, rfl, hs', fun o ho => hpost o
        (by simp [ho]), fun h => hun (by simp [h])⟩
  · rintro (⟨hs, rfl⟩ | ⟨hs, pre, s', post, rfl, hs', hpost, hun⟩)
    · exact ⟨ops, s, [], rfl, hs, by simp, by simp⟩
    · refine ⟨pre, s', post ++ [assignSection s b], by simp, hs', fun o ho s'' c hoc => ?_, ?_⟩
      · rcases List.mem_append.1 ho with ho | ho
        · exact hpost o ho s'' c hoc
        · simp only [List.mem_singleton] at ho
          rw [ho, assignSection.injEq] at hoc
          rw [← hoc.1]; exact hs
      · simp [hun]

theorem lastAssigned_snoc_unassign {ops : List (DivOp A)} {b : A} {x : List Int} {a : A} :
    LastAssigned (ops ++ [unassign b]) x a ↔ LastAssigned ops x a ∧ a ≠ b := by
  constructor
  · rintro ⟨pre, s', post, heq, hs', hpost, hun⟩
    rcases List.eq_nil_or_concat post with rfl | ⟨L, y, rfl⟩
    · obtain ⟨-, h⟩ := List.append_inj' heq rfl
      simp at h
    · rw [List.concat_eq_append, ← List.cons_append, ← List.append_assoc] at heq
      obtain ⟨rfl, h⟩ := List.append_inj' heq rfl
      simp only [List.cons.injEq, and_true] at h
      subst h
      refine ⟨⟨pre, s', L, rfl, hs', fun o ho => hpost o (by simp [ho]),
        fun h => hun (by simp [h])⟩, fun h => hun (by simp [h])⟩
  · rintro ⟨⟨pre, s', post, rfl, hs', hpost, hun⟩, hab⟩
    refine ⟨pre, s', post ++ [unassign b], by simp, hs', fun o ho s'' c hoc => ?_, ?_⟩
    · rcases List.mem_append.1 ho with ho | ho
      · exact hpost o ho s'' c hoc
      · simp only [List.mem_singleton] at ho
        rw [ho] at hoc
        exact DivOp.noConfusion hoc
    · simp [hun, hab]

variable [DecidableEq A]

def apply : DivOp A → SpaceDivision A → SpaceDivision A
  | assignSection s a, d => d.assignSection s a
  | unassign a, d => d.unassign a

/-- What a call does to the labelling of the cells. -/
def relabel : DivOp A → (List Int → Option A) → List Int → Option A
  | assignSection s a, f, x => if Space.Mem s x then some a else f x
  | unassign a, f, x => if f x = some a then none else f x

/-- The labelling a history of calls gives the cells, call by call. -/
def labels (ops : List (DivOp A)) : List Int → Option A :=
  ops.foldl (fun f o => o.relabel f) fun _ => none

/-- The call-by-call labelling is the last assignment of each cell that was not undone. -/
theorem labels_eq_some_iff (ops : List (DivOp A)) (x : List Int) (a : A) :
    labels ops x = some a ↔ LastAssigned ops x a := by
  induction ops using List.reverseRecOn generalizing a with
  | nil => simp [labels, lastAssigned_nil]
  | append_singleton ops o ih =>
    have hl : labels (ops ++ [o]) x = o.relabel (labels ops) x := by simp [labels]
    rw [hl]
    cases o with
    | assignSection s b =>
      rw [lastAssigned_snoc_assign, ← ih]
      by_cases hs : Space.Mem s x <;> simp [relabel, hs, eq_comm]
    | unassign b =>
      rw [lastAssigned_snoc_unassign, ← ih]
      by_cases hb : labels ops x = some b
      · simp only [relabel, hb, if_true, reduceCtorEq, Option.some_inj, false_iff, not_and,
          not_not]
        exact fun h => h.symm
      · simp only [relabel, hb, if_false, iff_self_and]
        rintro h rfl
        exact hb h

end DivOp

namespace SpaceDivision

variable {A : Type}

theorem wf_empty (F : Space) : Wf F (empty F : SpaceDivision A) :=
  ⟨rfl, by simp [empty], by simp [empty], by simp [empty], List.Pairwise.nil⟩

theorem represents_empty (F : Space) : Represents F (empty F : SpaceDivision A) fun _ => none := by
  intro x a
  simp [Covers, empty]

theorem mem_subDivision {d : SpaceDivision A} {sub : Space} {b : A} {t : Space} :
    (b, t) ∈ (d.subDivision sub).sections ↔
      ∃ s, (b, s) ∈ d.sections ∧ t = Space.inter s sub ∧ ∃ x, Space.Mem t x := by
  simp only [subDivision, List.mem_filterMap]
  constructor
  · rintro ⟨⟨b', s⟩, hp, h⟩
    split_ifs at h with he
    cases h
    exact ⟨s, hp, rfl, Space.exists_mem_of_isEmpty_false (by simpa using he)⟩
  · rintro ⟨s, hs, rfl, x, hx⟩
    refine ⟨(b, s), hs, ?_⟩
    rw [if_neg fun he => (Space.isEmpty_iff _).1 he x hx]

theorem Wf.covers_subDivision {F : Space} {d : SpaceDivision A} (hw : Wf F d) {sub : Space}
    (hl : sub.length = F.length) (x : List Int) (b : A) :
    (d.subDivision sub).Covers x b ↔ d.Covers x b ∧ Space.Mem sub x := by
  simp only [Covers, mem_subDivision]
  constructor
  · rintro ⟨t, ⟨s, hs, rfl, -⟩, hx⟩
    rw [Space.mem_inter ((hw.dims _ hs).trans hl.symm)] at hx
    exact ⟨⟨s, hs, hx.1⟩, hx.2⟩
  · rintro ⟨⟨s, hs, hx⟩, hsub⟩
    have hi := (Space.mem_inter ((hw.dims _ hs).trans hl.symm) x).2 ⟨hx, hsub⟩
    exact ⟨_, ⟨s, hs, rfl, x, hi⟩, hi⟩

theorem Represents.congr {F : Space} {d : SpaceDivision A} {f g : List Int → Option A}
    (hr : Represents F d f) (h : ∀ x, Space.Mem F x → f x = g x) : Represents F d g :=
  fun x a => (hr x a).trans (and_congr_right fun hx => by rw [h x hx])

theorem Wf.nodup {F : Space} {d : SpaceDivision A} (hw : Wf F d) : d.sections.Nodup :=
  hw.disjoint.imp_of_mem fun {p _} hp _ h heq => by
    subst heq
    obtain ⟨x, hx⟩ := Space.exists_mem_of_isEmpty_false (hw.nonempty p hp)
    exact h x hx hx

/-- `SubDivision` of a well-formed division is a well-formed division of the subspace. -/
theorem Wf.subDivision {F : Space} {d : SpaceDivision A} (hw : Wf F d) {sub : Space}
    (hl : sub.length = F.length) : Wf sub (d.subDivision sub) where
  full := rfl
  dims p hp := by
    obtain ⟨s, hs, ht, -⟩ := mem_subDivision.1 (show (p.1, p.2) ∈ _ from hp)
    rw [ht, Space.length_inter, hw.dims _ hs, hl]
  nonempty p hp := by
    obtain ⟨s, -, -, x, hx⟩ := mem_subDivision.1 (show (p.1, p.2) ∈ _ from hp)
    cases he : Space.isEmpty p.2
    · rfl
    · exact absurd hx ((Space.isEmpty_iff _).1 he x)
  inside p hp x hx := by
    obtain ⟨s, hs, ht, -⟩ := mem_subDivision.1 (show (p.1, p.2) ∈ _ from hp)
    rw [ht, Space.mem_inter ((hw.dims _ hs).trans hl.symm)] at hx
    exact hx.2
  disjoint := List.pairwise_filterMap.2 <| hw.disjoint.imp_of_mem fun {p q} hp hq hpq p' hp' q' hq'
      x hx hx' => by
    simp only [Option.mem_def, Option.ite_none_left_eq_some, Option.some.injEq] at hp' hq'
    obtain ⟨-, rfl⟩ := hp'
    obtain ⟨-, rfl⟩ := hq'
    rw [Space.mem_inter ((hw.dims _ hp).trans hl.symm)] at hx
    rw [Space.mem_inter ((hw.dims _ hq).trans hl.symm)] at hx'
    exact hpq x hx.1 hx'.1

variable [DecidableEq A]

/-- The division after a history of calls. -/
def run (d : SpaceDivision A) (ops : List (DivOp A)) : SpaceDivision A :=
  ops.foldl (fun d o => o.apply d) d

theorem run_spec {F : Space} : ∀ (ops : List (DivOp A)) {d : SpaceDivision A}
    {f : List Int → Option A}, Wf F d → Represents F d f → (∀ o ∈ ops, o.DimOk F) →
    Wf F (d.run ops) ∧ Represents F (d.run ops) (ops.foldl (fun f o => o.relabel f) f)
  | [], _, _, hw, hr, _ => ⟨hw, hr⟩
  | o :: ops, d, f, hw, hr, hd => by
    have h1 : Wf F (o.apply d) ∧ Represents F (o.apply d) (o.relabel f) := by
      cases o with
      | assignSection s a =>
        have hs : s.length = F.length := hd _ (List.mem_cons_self _ _)
        exact ⟨hw.assignSection hs a, hr.assignSection hw hs a⟩
      | unassign a => exact ⟨hw.unassign a, hr.unassign a⟩
    exact run_spec ops h1.1 h1.2 fun o' ho' => hd o' (List.mem_cons_of_mem _ ho')


theorem foldl_union_wf : ∀ (rest : List Space) {s : Space}, Space.isEmpty s = false →
    (∀ t ∈ rest, Space.isEmpty t = false ∧ t.length = s.length) →
    Space.isEmpty (rest.foldl Space.union s) = false ∧
      (rest.foldl Space.union s).length = s.length
  | [], _, hs, _ => ⟨hs, rfl⟩
  | t :: rest, s, hs, ht => by
    have h1 := ht t (List.mem_cons_self _ _)
    have hl : (Space.union s t).length = s.length := Space.length_union h1.2.symm
    rw [List.foldl_cons, ← hl]
    exact foldl_union_wf rest (Space.union_nonempty hs h1.1) fun t' ht' =>
      ⟨(ht t' (List.mem_cons_of_mem _ ht')).1, hl.symm ▸ (ht t' (List.mem_cons_of_mem _ ht')).2⟩

theorem mem_foldl_union : ∀ (rest : List Space) {s : Space}, Space.isEmpty s = false →
    (∀ t ∈ rest, Space.isEmpty t = false ∧ t.length = s.length) →
    ∀ t ∈ s :: rest, ∀ x, Space.Mem t x → Space.Mem (rest.foldl Space.union s) x
  | [], _, _, _, t, ht, x, hx => by rw [List.mem_singleton] at ht; subst ht; exact hx
  | t' :: rest, s, hs, ht, t, htm, x, hx => by
    have h1 := ht t' (List.mem_cons_self _ _)
    have hl : (Space.union s t').length = s.length := Space.length_union h1.2.symm
    have ih := mem_foldl_union rest (Space.union_nonempty hs h1.1) fun t'' ht'' =>
      ⟨(ht t'' (List.mem_cons_of_mem _ ht'')).1, hl.symm ▸ (ht t'' (List.mem_cons_of_mem _ ht'')).2⟩
    rw [List.foldl_cons]
    rcases List.mem_cons.1 htm with rfl | htm
    · exact ih _ (List.mem_cons_self _ _) x (Space.mem_union_of_mem hs h1.1 h1.2.symm x (.inl hx))
    rcases List.mem_cons.1 htm with rfl | htm
    · exact ih _ (List.mem_cons_self _ _) x (Space.mem_union_of_mem hs h1.1 h1.2.symm x (.inr hx))
    · exact ih t (List.mem_cons_of_mem _ htm) x hx

theorem foldl_union_faces : ∀ (rest : List Space) {s : Space}, Space.isEmpty s = false →
    (∀ t ∈ rest, Space.isEmpty t = false ∧ t.length = s.length) →
    ∀ {k : Nat} {r : Range}, (rest.foldl Space.union s)[k]? = some r →
      (∃ t ∈ s :: rest, ∃ r' : Range, t[k]? = some r' ∧ r'.lo = r.lo) ∧
      ∃ t ∈ s :: rest, ∃ r' : Range, t[k]? = some r' ∧ r'.hi = r.hi
  | [], s, _, _, k, r, h => ⟨⟨s, List.mem_singleton_self _, r, h, rfl⟩, s, List.mem_singleton_self _, r, h, rfl⟩
  | t' :: rest, s, hs, ht, k, r, h => by
    have h1 := ht t' (List.mem_cons_self _ _)
    have hl : (Space.union s t').length = s.length := Space.length_union h1.2.symm
    have ih := foldl_union_faces rest (Space.union_nonempty hs h1.1) (fun t'' ht'' =>
      ⟨(ht t'' (List.mem_cons_of_mem _ ht'')).1, hl.symm ▸ (ht t'' (List.mem_cons_of_mem _ ht'')).2⟩) h
    have hu : ∀ {r'' : Range}, (Space.union s t')[k]? = some r'' →
        (∃ t ∈ s :: t' :: rest, ∃ r' : Range, t[k]? = some r' ∧ r'.lo = r''.lo) ∧
        ∃ t ∈ s :: t' :: rest, ∃ r' : Range, t[k]? = some r' ∧ r'.hi = r''.hi := by
      intro r'' hr''
      obtain ⟨⟨r1, hr1, e1⟩, ⟨r2, hr2, e2⟩⟩ := Space.union_faces hs h1.1 hr''
      refine ⟨?_, ?_⟩
      · rcases hr1 with hr1 | hr1
        · exact ⟨s, by simp, r1, hr1, e1⟩
        · exact ⟨t', by simp, r1, hr1, e1⟩
      · rcases hr2 with hr2 | hr2
        · exact ⟨s, by simp, r2, hr2, e2⟩
        · exact ⟨t', by simp, r2, hr2, e2⟩
    obtain ⟨⟨t1, ht1, r1, hr1, e1⟩, ⟨t2, ht2, r2, hr2, e2⟩⟩ := ih
    refine ⟨?_, ?_⟩
    · rcases List.mem_cons.1 ht1 with rfl | ht1
      · obtain ⟨h', -⟩ := hu hr1; rwa [e1] at h'
      · exact ⟨t1, by simp [ht1], r1, hr1, e1⟩
    · rcases List.mem_cons.1 ht2 with rfl | ht2
      · obtain ⟨-, h'⟩ := hu hr2; rwa [e2] at h'
      · exact ⟨t2, by simp [ht2], r2, hr2, e2⟩

/-- `E` is the bounding box of the cells labelled `a`: it holds them all, and each face of
each of its ranges is reached by one of them; when no cell is labelled `a`, every range of `E`
is empty. -/
def IsEnvelope (d : SpaceDivision A) (a : A) (E : Space) : Prop :=
  ((∃ x, d.Covers x a) → (∀ x, d.Covers x a → Space.Mem E x) ∧
    ∀ (k : Nat) (r : Range), E[k]? = some r → (∃ x, d.Covers x a ∧ x[k]? = some r.lo) ∧
      ∃ x, d.Covers x a ∧ x[k]? = some (r.hi - 1)) ∧
  ((¬ ∃ x, d.Covers x a) → ∀ r ∈ E, r.isEmpty = true)

theorem Wf.isEnvelope {F : Space} {d : SpaceDivision A} (hw : Wf F d) (a : A) :
    IsEnvelope d a (d.getEnvelope a) := by
  have hL : ∀ t, t ∈ (d.sections.filter (fun p => p.1 = a)).map Prod.snd ↔ (a, t) ∈ d.sections := by
    intro t; simp only [List.mem_map, List.mem_filter, decide_eq_true_eq]
    constructor
    · rintro ⟨⟨b, t⟩, ⟨h, rfl⟩, rfl⟩; exact h
    · intro h; exact ⟨(a, t), ⟨h, rfl⟩, rfl⟩
  unfold getEnvelope
  rcases hl : (d.sections.filter (fun p => p.1 = a)).map Prod.snd with _ | ⟨s, rest⟩
  · simp only [hl]
    rw [hl] at hL
    refine ⟨fun ⟨x, t, ht, _⟩ => absurd ((hL t).2 ht) (List.not_mem_nil _), fun _ r hr => ?_⟩
    obtain ⟨r', -, rfl⟩ := List.mem_map.1 hr
    simp [Range.isEmpty]
  · simp only [hl]
    rw [hl] at hL
    have hs := (hL s).1 (List.mem_cons_self _ _)
    have hne : ∀ t ∈ rest, Space.isEmpty t = false ∧ t.length = s.length := fun t ht =>
      have ht' := (hL t).1 (List.mem_cons_of_mem _ ht)
      ⟨hw.nonempty _ ht', (hw.dims _ ht').trans (hw.dims _ hs).symm⟩
    have hsne := hw.nonempty _ hs
    obtain ⟨x0, hx0⟩ := Space.exists_mem_of_isEmpty_false hsne
    refine ⟨fun _ => ⟨?_, fun k r hr => ?_⟩, fun h => absurd ⟨x0, s, hs, hx0⟩ h⟩
    · rintro x ⟨t, ht, hx⟩
      exact mem_foldl_union rest hsne hne t ((hL t).2 ht) x hx
    · have hcorner : ∀ t ∈ s :: rest, (a, t) ∈ d.sections ∧ Space.isEmpty t = false :=
        fun t ht => ⟨(hL t).1 ht, hw.nonempty _ ((hL t).1 ht)⟩
      obtain ⟨⟨t1, ht1, r1, hr1, e1⟩, ⟨t2, ht2, r2, hr2, e2⟩⟩ := foldl_union_faces rest hsne hne hr
      refine ⟨⟨_, ⟨t1, (hcorner t1 ht1).1, Space.mem_origin (hcorner t1 ht1).2⟩, ?_⟩,
        ⟨_, ⟨t2, (hcorner t2 ht2).1, Space.mem_lastCorner (hcorner t2 ht2).2⟩, ?_⟩⟩
      · simp [Space.origin, hr1, e1]
      · simp [hr2, e2]

/-- The division after the calls `ops` on a fresh division bounded by `F`. -/
def after (F : Space) (ops : List (DivOp A)) : SpaceDivision A := (empty F).run ops

/-- `SpaceMultiDiv::AssignSection`. The copy `sd` of the section loses every stored section it
meets. A stored section whose set lacks the label is passed to `TrimSection`, which erases its
entry, and the loop then reads the set and the space of that entry through the erased iterator:
undefined. What is left of `sd` is stored under the set of the label alone. -/
def multiAssignSection [DecidableEq A] (d : SpaceDivision (List A)) (sec : Space) (a : A) :
    Option (SpaceDivision (List A)) :=
  let sec := Space.inter sec d.fullSpace
  if Space.isEmpty sec then some d
  else if (d.findOverlaps sec).any fun p => decide (a ∉ p.1) then none
  else
    let sd := (d.findOverlaps sec).foldl (fun sd p => (sd.assignSection p.2 false).unassign false)
      ((empty d.fullSpace).assignSection sec true)
    some ⟨d.fullSpace, d.sections ++ sd.sections.map fun p => ([a], p.2)⟩

/-- Labelling `[0, 2)` of `[0, 4)` with 1 stores it under `{1}`; labelling it again with 2 meets
that section, trims it away and reads the erased entry. -/
theorem multiAssignSection_relabel_undefined :
    ((empty [Range.beginEnd 0 4 (by decide)] : SpaceDivision (List Nat)).multiAssignSection
        [Range.beginEnd 0 2 (by decide)] 1).map (·.sections) =
      some [([1], [Range.beginEnd 0 2 (by decide)])] ∧
    (((empty [Range.beginEnd 0 4 (by decide)] : SpaceDivision (List Nat)).multiAssignSection
        [Range.beginEnd 0 2 (by decide)] 1).bind fun d =>
      d.multiAssignSection [Range.beginEnd 0 2 (by decide)] 2).map (·.sections) = none := by
  decide

end SpaceDivision

end Ladybirds
