import Mathlib.Data.List.Basic

/-! # Ranges and spaces

Half-open integer ranges and the Cartesian products of them that `range.h` calls spaces.
A cell of a space is one integer per dimension; the lemmas at the end of the module give
each operation of the source its meaning on cells.
-/

namespace Ladybirds

/-- The result of a signed `int` operation of the source: the value, or `none` where it leaves
`int` (`INT_MIN … INT_MAX`), which is undefined. -/
def checkedInt (x : Int) : Option Int :=
  if -2147483648 ≤ x ∧ x ≤ 2147483647 then some x else none

theorem checkedInt_of_le {x : Int} (h₁ : -2147483648 ≤ x) (h₂ : x ≤ 2147483647) :
    checkedInt x = some x :=
  if_pos ⟨h₁, h₂⟩

/-- A half-open range `[lo, hi)` of integers (`Begin_` and `End_` of the source, whose
constructor asserts `lo ≤ hi`). -/
structure Range where
  lo : Int
  hi : Int
  le : lo ≤ hi
  deriving DecidableEq, Repr

namespace Range

instance : Membership Int Range := ⟨fun r i => r.lo ≤ i ∧ i < r.hi⟩

instance (i : Int) (r : Range) : Decidable (i ∈ r) :=
  inferInstanceAs (Decidable (r.lo ≤ i ∧ i < r.hi))

theorem mem_def {i : Int} {r : Range} : i ∈ r ↔ r.lo ≤ i ∧ i < r.hi := Iff.rfl

/-- `Range::BeginEnd`. -/
def beginEnd (b e : Int) (h : b ≤ e) : Range := ⟨b, e, h⟩

/-- `Range::BeginCount` for a count the source asserts to be non-negative. -/
def beginCount (b : Int) (c : Nat) : Range := ⟨b, b + c, by omega⟩

def size (r : Range) : Int := r.hi - r.lo

def isEmpty (r : Range) : Bool := r.hi ≤ r.lo

def overlaps (r r' : Range) : Bool := r.lo < r'.hi && r.hi > r'.lo

def contains (r r' : Range) : Bool := r.lo ≤ r'.lo && r.hi ≥ r'.hi

/-- `Range::operator|=`: the bounding union; an empty range is the identity. -/
def union (r r' : Range) : Range :=
  if r.isEmpty then r'
  else if r'.isEmpty then r
  else ⟨min r.lo r'.lo, max r.hi r'.hi, by have := r.le; omega⟩

/-- `Range::operator&=`. -/
def inter (r r' : Range) : Range :=
  ⟨max r.lo r'.lo, max (max r.lo r'.lo) (min r.hi r'.hi), Int.le_max_left _ _⟩

/-- `Range::operator+=`. -/
def displace (r : Range) (o : Int) : Range := ⟨r.lo + o, r.hi + o, by have := r.le; omega⟩

/-- `RangeSubtract`: the zero, one or two ranges left of `src` once `sub` is removed. -/
def subtract (src sub : Range) : List Range :=
  if h : src.lo < sub.lo then
    if h' : src.hi > sub.hi then [beginEnd src.lo sub.lo (Int.le_of_lt h), beginEnd sub.hi src.hi (Int.le_of_lt h')]
    else if src.hi ≤ sub.lo then [src]
    else [beginEnd src.lo sub.lo (Int.le_of_lt h)]
  else if src.hi ≤ sub.hi then []
  else if src.lo ≥ sub.hi then [src]
  else if h' : sub.hi ≤ src.hi then [beginEnd sub.hi src.hi h'] else []

@[simp] theorem isEmpty_iff (r : Range) : r.isEmpty = true ↔ r.hi ≤ r.lo := by
  simp [isEmpty]

theorem isEmpty_iff_forall (r : Range) : r.isEmpty = true ↔ ∀ i, i ∉ r := by
  simp only [isEmpty_iff, mem_def, not_and, not_lt]
  exact ⟨fun h i hi => by omega, fun h => by have := h r.lo (Int.le_refl _); omega⟩

@[simp] theorem mem_inter {i : Int} {r r' : Range} : i ∈ r.inter r' ↔ i ∈ r ∧ i ∈ r' := by
  simp only [inter, mem_def]; omega

@[simp] theorem mem_displace {i o : Int} {r : Range} : i ∈ r.displace o ↔ i - o ∈ r := by
  simp only [displace, mem_def]; omega

theorem overlaps_iff {r r' : Range} (h : r.isEmpty = false) (h' : r'.isEmpty = false) :
    r.overlaps r' = true ↔ ∃ i, i ∈ r ∧ i ∈ r' := by
  simp only [isEmpty, decide_eq_false_iff_not, not_le] at h h'
  simp only [overlaps, Bool.and_eq_true, decide_eq_true_eq, mem_def]
  constructor
  · intro ⟨h1, h2⟩; exact ⟨max r.lo r'.lo, by omega⟩
  · rintro ⟨i, hi⟩; omega

theorem inter_nonempty {r q : Range} (hr : r.isEmpty = false) (hq : q.isEmpty = false)
    (h : r.overlaps q = true) : (r.inter q).isEmpty = false := by
  simp only [isEmpty, overlaps, inter, decide_eq_false_iff_not, not_le, Bool.and_eq_true,
    decide_eq_true_eq] at *
  omega

theorem union_of_nonempty {r r' : Range} (h : r.isEmpty = false) (h' : r'.isEmpty = false) :
    (r.union r').lo = min r.lo r'.lo ∧ (r.union r').hi = max r.hi r'.hi := by
  simp [union, h, h']

theorem union_nonempty {r r' : Range} (h : r.isEmpty = false) (h' : r'.isEmpty = false) :
    (r.union r').isEmpty = false := by
  have := union_of_nonempty h h'
  simp only [isEmpty, decide_eq_false_iff_not, not_le] at h h' ⊢
  omega

theorem mem_union_of_mem {r r' : Range} (h : r.isEmpty = false) (h' : r'.isEmpty = false)
    {i : Int} (hi : i ∈ r ∨ i ∈ r') : i ∈ r.union r' := by
  have := union_of_nonempty h h'
  simp only [mem_def] at hi ⊢
  omega

/-- The fragments of `RangeSubtract` are exactly the integers of `src` outside `sub`. -/
theorem mem_subtract {i : Int} {src sub : Range} :
    (∃ f ∈ src.subtract sub, i ∈ f) ↔ i ∈ src ∧ i ∉ sub := by
  have := src.le; have := sub.le
  unfold subtract
  split_ifs <;> simp [beginEnd, mem_def] <;> omega

theorem subtract_pairwise (src sub : Range) :
    (src.subtract sub).Pairwise (fun f g => ∀ i, i ∈ f → i ∉ g) := by
  have := src.le; have := sub.le
  unfold subtract
  split_ifs
  · simp only [List.pairwise_pair, beginEnd, mem_def]
    omega
  all_goals first | exact List.pairwise_singleton _ _ | exact List.Pairwise.nil

theorem subtract_nonempty {src sub : Range} (h : src.isEmpty = false) :
    ∀ f ∈ src.subtract sub, f.isEmpty = false := by
  simp only [isEmpty, decide_eq_false_iff_not, not_le] at h ⊢
  unfold subtract
  split_ifs <;> simp [beginEnd] <;> omega

end Range

/-- A space (`gen::Space`): one range per dimension. -/
abbrev Space := List Range

namespace Space

/-- A cell lies in a space: it has one coordinate per dimension, each inside its range. -/
def Mem : Space → List Int → Prop
  | [], [] => True
  | r :: s, i :: x => i ∈ r ∧ Mem s x
  | _, _ => False

instance decMem : (s : Space) → (x : List Int) → Decidable (Mem s x)
  | [], [] => isTrue trivial
  | [], _ :: _ => isFalse id
  | _ :: _, [] => isFalse id
  | r :: s, i :: x =>
    haveI := decMem s x
    inferInstanceAs (Decidable (i ∈ r ∧ Mem s x))

@[simp] theorem mem_nil {x : List Int} : Mem [] x ↔ x = [] := by
  cases x <;> simp [Mem]

@[simp] theorem mem_cons {x : List Int} {r : Range} {s : Space} :
    Mem (r :: s) x ↔ ∃ i y, x = i :: y ∧ i ∈ r ∧ Mem s y := by
  cases x with
  | nil => simp [Mem]
  | cons i x => exact ⟨fun h => ⟨i, x, rfl, h⟩, fun ⟨_, _, h, h'⟩ => by cases h; exact h'⟩

@[simp] theorem cons_mem_cons {i : Int} {x : List Int} {r : Range} {s : Space} :
    Mem (r :: s) (i :: x) ↔ i ∈ r ∧ Mem s x := Iff.rfl

theorem length_of_mem : ∀ {s : Space} {x : List Int}, Mem s x → x.length = List.length s
  | [], [], _ => rfl
  | _ :: _, i :: x, h => by simp [length_of_mem h.2]
  | [], _ :: _, h => h.elim
  | _ :: _, [], h => h.elim

/-- Membership read dimension by dimension. -/
theorem mem_iff_getElem? : ∀ {s : Space} {x : List Int}, Mem s x ↔
    x.length = s.length ∧ ∀ (i : Nat) (r : Range) (xi : Int), s[i]? = some r → x[i]? = some xi → xi ∈ r
  | [], [] => by simp
  | [], _ :: _ => by simp [Mem]
  | _ :: _, [] => by simp [Mem]
  | r :: s, i :: x => by
    rw [cons_mem_cons, mem_iff_getElem?]
    constructor
    · rintro ⟨hi, hl, hx⟩
      refine ⟨by simp [hl], fun t q xt hq hxt => ?_⟩
      cases t with
      | zero =>
        simp only [List.getElem?_cons_zero, Option.some.injEq] at hq hxt
        exact hq ▸ hxt ▸ hi
      | succ t => exact hx t q xt (by simpa using hq) (by simpa using hxt)
    · rintro ⟨hl, hx⟩
      exact ⟨hx 0 r i (by simp) (by simp), by simpa using hl,
        fun t q xt hq hxt => hx (t + 1) q xt (by simpa using hq) (by simpa using hxt)⟩

/-- `Space::Space(dims)`: the ranges `[0, d)`. -/
def ofDims (dims : List Nat) : Space := dims.map (Range.beginCount 0)

def dimensions (s : Space) : List Int := List.map Range.size s

def origin (s : Space) : List Int := List.map Range.lo s

/-- `Space::GetEffectiveDimensions`: the sizes that are not 1. -/
def effectiveDimensions (s : Space) : List Int := (dimensions s).filter (· > 1)

def volume (s : Space) : Int := List.foldl (fun v r => v * r.size) 1 s

def isEmpty (s : Space) : Bool := List.any s Range.isEmpty

/-- `Space::Overlaps`, on spaces of one dimensionality (the source asserts it). -/
def overlaps : Space → Space → Bool
  | r :: s, r' :: t => r.overlaps r' && overlaps s t
  | _, _ => true

/-- `Space::Contains`, on spaces of one dimensionality. -/
def contains : Space → Space → Bool
  | r :: s, r' :: t => r.contains r' && contains s t
  | _, _ => true

/-- `Space::Clear`: every range shrinks to size zero at its begin. -/
def clear (s : Space) : Space := List.map (fun r => ⟨r.lo, r.lo, Int.le_refl _⟩) s

/-- `Space::operator&=` up to its final `Clear`: the ranges are intersected in order until
the first one that becomes empty. -/
def interPrefix : Space → Space → Space
  | r :: s, r' :: t =>
    if (r.inter r').isEmpty then r.inter r' :: s else r.inter r' :: interPrefix s t
  | s, _ => s

/-- `Space::operator&=`: an empty intersection is cleared, keeping its origin. -/
def inter (s t : Space) : Space :=
  if isEmpty (interPrefix s t) then clear (interPrefix s t) else interPrefix s t

/-- `Space::operator|=`: the bounding union, dimension by dimension. -/
def union (s t : Space) : Space := List.zipWith Range.union s t

def displace (s : Space) (d : List Int) : Space := List.zipWith Range.displace s d

def displaceNeg (s : Space) (d : List Int) : Space :=
  List.zipWith (fun r o => Range.displace r (-o)) s d

@[simp] theorem length_ofDims (dims : List Nat) : List.length (ofDims dims) = dims.length := by
  simp [ofDims]

@[simp] theorem isEmpty_nil : isEmpty [] = false := rfl

@[simp] theorem isEmpty_cons (r : Range) (s : Space) :
    isEmpty (r :: s) = (r.isEmpty || isEmpty s) := rfl

theorem isEmpty_iff (s : Space) : isEmpty s = true ↔ ∀ x, ¬ Mem s x := by
  induction s with
  | nil => simp only [isEmpty_nil, Bool.false_eq_true, mem_nil, false_iff, not_forall,
      not_not, exists_eq]
  | cons r s ih =>
    simp only [isEmpty_cons, Bool.or_eq_true, ih, Range.isEmpty_iff_forall, mem_cons,
      not_exists, not_and]
    constructor
    · rintro (h | h) x i y rfl hi hy
      · exact h i hi
      · exact h y hy
    · intro h
      by_contra hc
      push_neg at hc
      obtain ⟨⟨i, hi⟩, ⟨y, hy⟩⟩ := hc
      exact h _ i y rfl hi hy

theorem exists_mem_of_isEmpty_false {s : Space} (h : isEmpty s = false) : ∃ x, Mem s x := by
  by_contra hc
  push_neg at hc
  simp [(isEmpty_iff s).2 hc] at h

@[simp] theorem length_interPrefix : ∀ (s t : Space),
    List.length (interPrefix s t) = List.length s
  | r :: s, r' :: t => by unfold interPrefix; split_ifs <;> simp [length_interPrefix s t]
  | [], _ => rfl
  | _ :: _, [] => rfl

@[simp] theorem length_inter (s t : Space) : List.length (inter s t) = List.length s := by
  unfold inter; split_ifs <;> simp [clear]

theorem not_mem_clear {s : Space} (h : s ≠ []) (x : List Int) : ¬ Mem (clear s) x := by
  obtain ⟨r, s, rfl⟩ := List.exists_cons_of_ne_nil h
  simp only [clear, List.map_cons, mem_cons, Range.mem_def, not_exists, not_and]
  intro i y _ h1 h2
  omega

/-- Before the final `Clear`, the prefix intersection is the intersection on cells, or has no
cell in common with either operand. -/
theorem mem_interPrefix : ∀ {s t : Space}, List.length s = List.length t →
    (isEmpty (interPrefix s t) = false → ∀ x, Mem (interPrefix s t) x ↔ Mem s x ∧ Mem t x) ∧
    (isEmpty (interPrefix s t) = true → ∀ x, ¬ (Mem s x ∧ Mem t x))
  | [], [], _ => by simp [interPrefix]
  | r :: s, r' :: t, h => by
    have ih := @mem_interPrefix s t (by simpa using h)
    unfold interPrefix
    split_ifs with he
    · refine ⟨by simp [he], fun _ x => ?_⟩
      rw [Range.isEmpty_iff_forall] at he
      simp only [mem_cons, not_and]
      rintro ⟨i, y, rfl, hi, -⟩ ⟨_, _, h', hi', -⟩
      cases h'
      exact he i (Range.mem_inter.2 ⟨hi, hi'⟩)
    · simp only [isEmpty_cons, he, Bool.false_or]
      refine ⟨fun hne x => ?_, fun hemp x => ?_⟩
      · cases x with
        | nil => simp [Mem]
        | cons i x => simp only [cons_mem_cons, Range.mem_inter, ih.1 hne x]; tauto
      · rintro ⟨hs, ht⟩
        simp only [mem_cons] at hs ht
        obtain ⟨i, y, rfl, -, hy⟩ := hs
        obtain ⟨_, _, h', -, hy'⟩ := ht
        cases h'
        exact ih.2 hemp y ⟨hy, hy'⟩

/-- `Space::operator&=` is the intersection on cells. -/
theorem mem_inter {s t : Space} (h : List.length s = List.length t) (x : List Int) :
    Mem (inter s t) x ↔ Mem s x ∧ Mem t x := by
  have hp := mem_interPrefix h
  unfold inter
  split_ifs with he
  · refine iff_of_false (not_mem_clear ?_ x) (hp.2 he x)
    rintro h0
    simp [h0] at he
  · exact hp.1 (by simpa using he) x

theorem overlaps_iff : ∀ {s t : Space}, isEmpty s = false → isEmpty t = false →
    List.length s = List.length t → (overlaps s t = true ↔ ∃ x, Mem s x ∧ Mem t x)
  | [], [], _, _, _ => by simp [overlaps, Mem]
  | r :: s, r' :: t, hs, ht, h => by
    simp only [isEmpty_cons, Bool.or_eq_false_iff] at hs ht
    simp only [overlaps, Bool.and_eq_true, Range.overlaps_iff hs.1 ht.1,
      overlaps_iff hs.2 ht.2 (by simpa using h), mem_cons]
    constructor
    · rintro ⟨⟨i, hi, hi'⟩, ⟨y, hy, hy'⟩⟩
      exact ⟨i :: y, ⟨i, y, rfl, hi, hy⟩, ⟨i, y, rfl, hi', hy'⟩⟩
    · rintro ⟨_, ⟨i, y, rfl, hi, hy⟩, ⟨_, _, h', hi', hy'⟩⟩
      cases h'
      exact ⟨⟨i, hi, hi'⟩, ⟨y, hy, hy'⟩⟩

theorem length_union : ∀ {s t : Space}, s.length = t.length → (union s t).length = s.length
  | s, t, h => by simp [union, h]

theorem union_nonempty : ∀ {s t : Space}, isEmpty s = false → isEmpty t = false →
    isEmpty (union s t) = false
  | r :: s, r' :: t, hs, ht => by
    simp only [isEmpty_cons, Bool.or_eq_false_iff] at hs ht
    show isEmpty (Range.union r r' :: union s t) = false
    simp [Range.union_nonempty hs.1 ht.1, union_nonempty hs.2 ht.2]
  | [], _, _, _ => rfl
  | _ :: _, [], _, _ => rfl

theorem mem_union_of_mem : ∀ {s t : Space}, isEmpty s = false → isEmpty t = false →
    s.length = t.length → ∀ x, Mem s x ∨ Mem t x → Mem (union s t) x
  | [], [], _, _, _, x, h => by simpa [union] using h
  | r :: s, r' :: t, hs, ht, hl, x, h => by
    simp only [isEmpty_cons, Bool.or_eq_false_iff] at hs ht
    have ih := mem_union_of_mem hs.2 ht.2 (by simpa using hl)
    cases x with
    | nil => rcases h with h | h <;> exact h.elim
    | cons i y =>
      exact ⟨Range.mem_union_of_mem hs.1 ht.1 (h.imp And.left And.left),
        ih y (h.imp And.right And.right)⟩
  | [], _ :: _, _, _, hl, _, _ => by simp at hl
  | _ :: _, [], _, _, hl, _, _ => by simp at hl

/-- Each face of a bounding union is a face of one of the two spaces. -/
theorem union_faces : ∀ {s t : Space}, isEmpty s = false → isEmpty t = false →
    ∀ {k : Nat} {r : Range}, (union s t)[k]? = some r →
      (∃ r' : Range, (s[k]? = some r' ∨ t[k]? = some r') ∧ r'.lo = r.lo) ∧
      ∃ r' : Range, (s[k]? = some r' ∨ t[k]? = some r') ∧ r'.hi = r.hi
  | r1 :: s, r2 :: t, hs, ht, k, r, h => by
    simp only [isEmpty_cons, Bool.or_eq_false_iff] at hs ht
    cases k with
    | zero =>
      simp only [union, List.zipWith_cons_cons, List.getElem?_cons_zero, Option.some.injEq] at h
      subst h
      have := Range.union_of_nonempty hs.1 ht.1
      simp only [List.getElem?_cons_zero, Option.some.injEq]
      constructor
      · by_cases hc : r1.lo ≤ r2.lo
        · exact ⟨r1, Or.inl rfl, by rw [this.1]; omega⟩
        · exact ⟨r2, Or.inr rfl, by rw [this.1]; omega⟩
      · by_cases hc : r2.hi ≤ r1.hi
        · exact ⟨r1, Or.inl rfl, by rw [this.2]; omega⟩
        · exact ⟨r2, Or.inr rfl, by rw [this.2]; omega⟩
    | succ k =>
      simp only [union, List.zipWith_cons_cons, List.getElem?_cons_succ] at h ⊢
      exact union_faces hs.2 ht.2 h
  | [], _, _, _, _, _, h => by simp [union] at h
  | _ :: _, [], _, _, _, _, h => by simp [union] at h

/-- The corner of a non-empty space at the begins of its ranges. -/
theorem mem_origin : ∀ {s : Space}, isEmpty s = false → Mem s (origin s)
  | [], _ => trivial
  | r :: s, h => by
    simp only [isEmpty_cons, Bool.or_eq_false_iff, Range.isEmpty, decide_eq_false_iff_not,
      not_le] at h
    exact ⟨⟨Int.le_refl _, by omega⟩, mem_origin h.2⟩

/-- The corner of a non-empty space at the last elements of its ranges. -/
theorem mem_lastCorner : ∀ {s : Space}, isEmpty s = false → Mem s (List.map (·.hi - 1) s)
  | [], _ => trivial
  | r :: s, h => by
    simp only [isEmpty_cons, Bool.or_eq_false_iff, Range.isEmpty, decide_eq_false_iff_not,
      not_le] at h
    exact ⟨⟨show r.lo ≤ r.hi - 1 by omega, show r.hi - 1 < r.hi by omega⟩, mem_lastCorner h.2⟩

end Space

end Ladybirds
