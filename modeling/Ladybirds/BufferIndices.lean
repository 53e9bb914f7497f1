import Mathlib.Algebra.BigOperators.Group.List
import Mathlib.Algebra.Order.BigOperators.GroupWithZero.List
import Mathlib.Data.List.Forall2
import Mathlib.Tactic.Ring
import Mathlib.Tactic.Linarith
import Ladybirds.Range
import Ladybirds.OptionTraversal

/-! # Addressing in a gang's buffer

`AdjustIndices` lays the interfaces of a gang out in one buffer holding the bounding box of their
`PosHint`s in row-major order, and gives each its offset and the strides `BufferDimsAdj` its task
indexes it with, matching the interface's dimensions from the back with ranges of the `PosHint`
over ranges of size 1. Its products and sums are `int`; an overflow is `none`.
-/

namespace Ladybirds

namespace BufferPreallocation

/-- The fields of an interface `AdjustIndices` reads: its `PosHint`, `GetDimensions()` and the
size of its packet's base type. -/
structure GangIface where
  posHint : Space
  dims : List Int
  baseSize : Int
  deriving DecidableEq, Repr

/-- What `AdjustIndices` leaves in an interface: its `PosHint` moved by the buffer's origin, and
what `SetBuffer` stores. -/
structure Placement where
  posHint : Space
  bufferDimsAdj : List Int
  bufferOffset : Int
  deriving DecidableEq, Repr

/-- The buffer's `Size` in bytes, its dimensions, and the placement of each interface. -/
structure Layout where
  size : Int
  dims : List Int
  ifaces : List Placement
  deriving DecidableEq, Repr

/-- `GetIndexSpace`: the bounding union of the `PosHint`s of a gang. -/
def getIndexSpace (d : GangIface) (gang : List GangIface) : Space :=
  gang.foldl (fun s d => Space.union s d.posHint) d.posHint

/-- The multiplication vector of dimensions `dim`, computed from the back in `int`, and the
product of all of them. -/
def mulVec : List Int → Option (List Int × Int)
  | [] => some ([], 1)
  | d :: dim => do
    let r ← mulVec dim
    let mul ← checkedInt (r.2 * d)
    pure (r.2 :: r.1, mul)

/-- `std::inner_product` of `int`s from `acc`. -/
def innerProduct : List Int → List Int → Int → Option Int
  | a :: as, b :: bs, acc => do
    let p ← checkedInt (a * b)
    let acc ← checkedInt (acc + p)
    innerProduct as bs acc
  | _, _, acc => some acc

/-- The loop of `AdjustIndices` over the dimensions of an interface, last first: `disp` the
dimensions left, `idx` the sizes of the `PosHint`'s ranges and `dim` the buffer's dimensions not
yet passed, `mul` the entry of the next match. Reading past the ranges, or a failed assertion, is
`none`. -/
def adjustDims : List Int → List Int → List Int → Int → Option (List Int)
  | [], _, _, _ => some []
  | d :: disp, s :: idx, e :: dim, mul =>
    if d = s then (adjustDims disp idx dim e).map (mul :: ·)
    else if s = 1 then checkedInt (mul * e) >>= adjustDims (d :: disp) idx dim
    else none
  | _ :: _, _, _, _ => none

/-- The body of the loop of `AdjustIndices` over the gang: the placement of interface `d` in a
buffer of dimensions `dim` and multiplication vector `mulvec` whose box starts at `origin`. -/
def placeIface (origin dim mulvec : List Int) (elemsizeof : Int) (d : GangIface) :
    Option Placement := do
  let ph := d.posHint.displaceNeg origin
  let adj ← adjustDims d.dims.reverse ph.dimensions.reverse dim.reverse 1
  let offset ← innerProduct ph.origin mulvec 0
  let offset ← checkedInt (offset * elemsizeof)
  pure ⟨ph, adj.reverse, offset⟩

/-- `AdjustIndices` for the gang `d0 :: gang`; its base type is that of `d0`. -/
def adjustIndices : List GangIface → Option Layout
  | [] => none
  | d0 :: gang => do
    let s := getIndexSpace d0 gang
    let dim := (s.displaceNeg s.origin).dimensions
    let (mulvec, mul) ← mulVec dim
    let size ← checkedInt (mul * d0.baseSize)
    let ifaces ← (d0 :: gang).mapM (placeIface s.origin dim mulvec d0.baseSize)
    pure ⟨size, dim, ifaces⟩

end BufferPreallocation

/-- The row-major index of cell `x` of an array of dimensions `dims`. -/
def linearIndex (dims x : List Int) : Int :=
  (dims.zip x).foldl (fun acc p => acc * p.1 + p.2) 0

/-- The row-major index of a cell within a box. -/
def Space.linearIndexOf (b : Space) (cell : List Int) : Int :=
  linearIndex b.dimensions (List.zipWith (· - ·) cell b.origin)

theorem Range.contains_union_of_contains {r r' q : Range} (hq : q.isEmpty = false)
    (h : r.contains q = true) : (Range.union r r').contains q = true := by
  simp only [Range.union, Range.contains, Range.isEmpty, Bool.and_eq_true, decide_eq_true_eq,
    decide_eq_false_iff_not] at *
  split_ifs <;> simp_all
  omega

theorem Range.contains_union_right {r r' : Range} (h : r'.isEmpty = false) :
    (Range.union r r').contains r' = true := by
  simp only [Range.union, Range.contains, Range.isEmpty, decide_eq_false_iff_not,
    decide_eq_true_eq] at *
  split_ifs <;> simp_all

/-- Every non-empty range of `s` lies in the range of `b` of its dimension. -/
def Space.Encloses (b s : Space) : Prop :=
  ∀ (m : Nat) (r : Range), s[m]? = some r → r.isEmpty = false →
    ∃ rb : Range, b[m]? = some rb ∧ rb.contains r = true

theorem Space.encloses_refl (s : Space) : s.Encloses s :=
  fun _ r hr _ => ⟨r, hr, by simp [Range.contains]⟩

theorem Space.Encloses.union {b s t : Space} (hl : b.length = t.length) (h : b.Encloses s) :
    (Space.union b t).Encloses s := by
  intro m r hr hne
  obtain ⟨rb, hb, hc⟩ := h m r hr hne
  have hm : m < t.length := hl ▸ (List.getElem?_eq_some_iff.1 hb).1
  obtain ⟨rt, ht⟩ : ∃ rt, t[m]? = some rt := ⟨t[m], List.getElem?_eq_getElem hm⟩
  exact ⟨Range.union rb rt, by simp [Space.union, List.getElem?_zipWith, hb, ht],
    Range.contains_union_of_contains hne hc⟩

theorem Space.encloses_union_right {b t : Space} (hl : b.length = t.length) :
    (Space.union b t).Encloses t := by
  intro m r hr hne
  have hm : m < b.length := hl ▸ (List.getElem?_eq_some_iff.1 hr).1
  exact ⟨Range.union b[m] r, by simp [Space.union, List.getElem?_zipWith, List.getElem?_eq_getElem hm, hr],
    Range.contains_union_right hne⟩

theorem dimensions_displaceNeg : ∀ {s : Space} {o : List Int}, s.length = o.length →
    (s.displaceNeg o).dimensions = s.dimensions
  | [], [], _ => rfl
  | r :: s, i :: o, h => by
    simp only [Space.displaceNeg, List.zipWith_cons_cons, Space.dimensions, List.map_cons] at *
    exact congrArg₂ _ (by simp [Range.size, Range.displace]) (dimensions_displaceNeg (by simpa using h))
  | [], _ :: _, h | _ :: _, [], h => by simp at h

theorem origin_displaceNeg : ∀ {s : Space} {o : List Int}, s.length = o.length →
    (s.displaceNeg o).origin = List.zipWith (· - ·) s.origin o
  | [], [], _ => rfl
  | r :: s, i :: o, h => by
    simp only [Space.displaceNeg, List.zipWith_cons_cons, Space.origin, List.map_cons] at *
    exact congrArg₂ _ (by simp [Range.displace]; omega) (origin_displaceNeg (by simpa using h))
  | [], _ :: _, h | _ :: _, [], h => by simp at h

theorem Space.volume_eq_dimensions_prod (s : Space) : s.volume = s.dimensions.prod := by
  have key : ∀ (s : Space) (v : Int),
      s.foldl (fun v r => v * r.size) v = v * (s.map Range.size).prod := by
    intro s
    induction s with
    | nil => simp
    | cons r s ih => intro v; rw [List.foldl_cons, ih, List.map_cons, List.prod_cons, mul_assoc]
  rw [Space.volume, key, one_mul]
  rfl

theorem Space.Encloses.tail {rb r : Range} {b s : Space} (h : Space.Encloses (rb :: b) (r :: s)) :
    b.Encloses s :=
  fun m q hq hne => by simpa using h (m + 1) q (by simpa using hq) hne

theorem zipWith_add_sub : ∀ {a x o : List Int},
    List.zipWith (· - ·) (List.zipWith (· + ·) a x) o =
      List.zipWith (· + ·) (List.zipWith (· - ·) a o) x
  | i :: a, y :: x, c :: o => by
    simp only [List.zipWith_cons_cons, zipWith_add_sub, List.cons.injEq, and_true]
    omega
  | [], _, _ => rfl
  | _ :: _, [], _ => by simp
  | _ :: _, _ :: _, [] => by simp

/-- The cell at a relative position inside a `PosHint` enclosed by a box lies inside the box. -/
theorem cell_within : ∀ {b ph : Space} {x : List Int}, ph.length = b.length → b.Encloses ph →
    List.Forall₂ (fun s y => 0 ≤ y ∧ y < s) ph.dimensions x →
    List.Forall₂ (fun n y => 0 ≤ y ∧ y < n) b.dimensions
      (List.zipWith (· - ·) (List.zipWith (· + ·) ph.origin x) b.origin)
  | [], [], [], _, _, _ => .nil
  | rb :: b, r :: ph, y :: x, hl, he, hx => by
    obtain ⟨hy, hx⟩ := List.forall₂_cons.1 hx
    have hne : r.isEmpty = false := by simp [Range.isEmpty, Range.size] at hy ⊢; omega
    obtain ⟨rb', hrb, hc⟩ := he 0 r (by simp) hne
    obtain rfl : rb' = rb := by simpa using hrb.symm
    simp only [Range.contains, Bool.and_eq_true, decide_eq_true_eq] at hc
    simp only [Range.size] at hy
    exact .cons ⟨by dsimp only; omega, by dsimp only [Range.size]; omega⟩
      (cell_within (by simpa using hl) he.tail hx)
  | [], _ :: _, _, hl, _, _ | _ :: _, [], _, hl, _, _ => by simp at hl
  | _, [], _ :: _, _, _, hx | _, _ :: _, [], _, _, hx => by simp [Space.dimensions] at hx

/-- The origin of a non-empty `PosHint` enclosed by a box is a cell of the box. -/
theorem origin_within : ∀ {b ph : Space}, ph.length = b.length → b.Encloses ph →
    (∀ r ∈ ph, r.isEmpty = false) →
    List.Forall₂ (fun n y => 0 ≤ y ∧ y < n) b.dimensions (List.zipWith (· - ·) ph.origin b.origin)
  | [], [], _, _, _ => .nil
  | rb :: b, r :: ph, hl, he, hne => by
    have hr := hne r (List.mem_cons_self _ _)
    obtain ⟨rb', hrb, hc⟩ := he 0 r (by simp) hr
    obtain rfl : rb' = rb := by simpa using hrb.symm
    simp only [Range.contains, Range.isEmpty, Bool.and_eq_true, decide_eq_true_eq,
      decide_eq_false_iff_not] at hc hr
    exact .cons ⟨by dsimp only; omega, by dsimp only [Range.size]; omega⟩
      (origin_within (by simpa using hl) he.tail fun q hq => hne q (List.mem_cons_of_mem _ hq))
  | [], _ :: _, hl, _, _ | _ :: _, [], hl, _, _ => by simp at hl

/-- A box with a cell has dimensions of at least 1, and the cell no negative coordinate. -/
theorem one_le_of_cell {l x : List Int} (h : List.Forall₂ (fun n y => 0 ≤ y ∧ y < n) l x) :
    (∀ e ∈ l, 1 ≤ e) ∧ ∀ y ∈ x, 0 ≤ y := by
  induction h with
  | nil => simp
  | cons hy _ ih =>
    simp only [List.mem_cons, forall_eq_or_imp]
    exact ⟨⟨by omega, ih.1⟩, hy.1, ih.2⟩

namespace BufferPreallocation

/-- `sum_i j_i * prod_{m >= i} adj_m`: the address of relative position `j` that the task computes
from `BufferDimsAdj`. -/
def weightedSum : List Int → List Int → Int
  | i :: j, a :: adj => i * (a :: adj).prod + weightedSum j adj
  | _, _ => 0

/-- The dimensions of an interface are the sizes of the ranges of its `PosHint`, with some ranges
of size 1 left out. -/
inductive Collapses : List Int → List Int → Prop
  | nil : Collapses [] []
  | keep {dims sizes : List Int} (d : Int) : Collapses dims sizes → Collapses (d :: dims) (d :: sizes)
  | skip {dims sizes : List Int} : Collapses dims sizes → Collapses dims (1 :: sizes)

/-- `x` is the cell at relative position `j` of an interface of dimensions `dims`, relative to
the origin of a `PosHint` with ranges of sizes `sizes`: each coordinate of `j` in the range of its
dimension, 0 in a range left out. -/
inductive Places : List Int → List Int → List Int → List Int → Prop
  | nil : Places [] [] [] []
  | keep {dims sizes j x : List Int} (d i : Int) :
      Places dims sizes j x → Places (d :: dims) (d :: sizes) (i :: j) (i :: x)
  | skip {dims sizes j x : List Int} : Places dims sizes j x → Places dims (1 :: sizes) j (0 :: x)

/-- The strides of row-major order: entry `i` is the product of the dimensions after `i`. -/
def strides : List Int → List Int
  | [] => []
  | _ :: dim => dim.prod :: strides dim

/-- The inner product of two lists of integers. -/
def dotProduct (a b : List Int) : Int := (List.zipWith (· * ·) a b).sum

@[simp] theorem dotProduct_nil_left (b : List Int) : dotProduct [] b = 0 := rfl

@[simp] theorem dotProduct_cons (i : Int) (a : List Int) (m : Int) (b : List Int) :
    dotProduct (i :: a) (m :: b) = i * m + dotProduct a b := by
  simp [dotProduct]

@[simp] theorem length_strides (dim : List Int) : (strides dim).length = dim.length := by
  induction dim with
  | nil => rfl
  | cons d dim ih => simp [strides, ih]

/-- Horner's rule from an accumulated prefix is the inner product with the strides. -/
theorem foldl_linearIndex : ∀ (dims x : List Int) (acc : Int), x.length = dims.length →
    (dims.zip x).foldl (fun acc p => acc * p.1 + p.2) acc =
      acc * dims.prod + dotProduct x (strides dims)
  | [], _, acc, _ => by simp [dotProduct, strides]
  | _ :: _, [], _, h => by simp at h
  | d :: dims, i :: x, acc, h => by
    rw [List.zip_cons_cons, List.foldl_cons, foldl_linearIndex dims x _ (by simpa using h)]
    simp only [strides, dotProduct_cons, List.prod_cons]
    ring

/-- The offset `AdjustIndices` computes from the multiplication vector is the row-major index. -/
theorem dotProduct_strides {dims x : List Int} (h : x.length = dims.length) :
    dotProduct x (strides dims) = linearIndex dims x := by
  rw [linearIndex, foldl_linearIndex dims x 0 h, zero_mul, zero_add]

theorem dotProduct_add : ∀ {a b m : List Int}, a.length = b.length →
    dotProduct (List.zipWith (· + ·) a b) m = dotProduct a m + dotProduct b m
  | [], [], _, _ => rfl
  | _ :: _, _ :: _, [], _ => by simp [dotProduct]
  | i :: a, i' :: b, n :: m, h => by
    simp only [List.zipWith_cons_cons, dotProduct_cons, dotProduct_add (by simpa using h)]
    ring
  | [], _ :: _, _, h | _ :: _, [], _, h => by simp at h

theorem dotProduct_nonneg : ∀ {a b : List Int}, (∀ x ∈ a, 0 ≤ x) → (∀ y ∈ b, 0 ≤ y) →
    0 ≤ dotProduct a b
  | x :: a, y :: b, ha, hb => by
    rw [dotProduct_cons]
    exact add_nonneg (mul_nonneg (ha x (List.mem_cons_self _ _)) (hb y (List.mem_cons_self _ _)))
      (dotProduct_nonneg (fun z hz => ha z (List.mem_cons_of_mem _ hz))
        fun z hz => hb z (List.mem_cons_of_mem _ hz))
  | [], _, _, _ => le_rfl
  | _ :: _, [], _, _ => by simp [dotProduct]

theorem linearIndex_add {dims a b : List Int} (ha : a.length = dims.length)
    (hb : b.length = dims.length) :
    linearIndex dims (List.zipWith (· + ·) a b) = linearIndex dims a + linearIndex dims b := by
  rw [← dotProduct_strides ha, ← dotProduct_strides hb, ← dotProduct_strides (by simp [ha, hb]),
    dotProduct_add (ha.trans hb.symm)]

theorem one_le_strides : ∀ {dim : List Int}, (∀ e ∈ dim, 1 ≤ e) → ∀ x ∈ strides dim, 1 ≤ x
  | [], _ => by simp [strides]
  | _ :: dim, h => by
    have h' : ∀ e ∈ dim, 1 ≤ e := fun e he => h e (List.mem_cons_of_mem _ he)
    simpa [strides, List.one_le_prod h'] using one_le_strides h'

/-- Over dimensions of at least 1 whose product fits in `int`, the multiplication vector is the
strides and the product. -/
theorem mulVec_eq : ∀ {dim : List Int}, (∀ e ∈ dim, 1 ≤ e) → dim.prod ≤ 2147483647 →
    mulVec dim = some (strides dim, dim.prod)
  | [], _, _ => rfl
  | d :: dim, h1, h => by
    have h1' : ∀ e ∈ dim, 1 ≤ e := fun e he => h1 e (List.mem_cons_of_mem _ he)
    have hp := List.one_le_prod h1'
    rw [List.prod_cons] at h ⊢
    have hle : dim.prod ≤ d * dim.prod := le_mul_of_one_le_left (by omega) (h1 d (List.mem_cons_self _ _))
    simp only [mulVec, mulVec_eq h1' (by omega), Option.bind_eq_bind, Option.some_bind,
      mul_comm dim.prod d, checkedInt_of_le (by omega : -2147483648 ≤ d * dim.prod) h]
    rfl

/-- The inner product of non-negative `int`s whose sum fits does not overflow. -/
theorem innerProduct_eq : ∀ {a b : List Int} {acc : Int}, (∀ x ∈ a, 0 ≤ x) → (∀ y ∈ b, 0 ≤ y) →
    0 ≤ acc → acc + dotProduct a b ≤ 2147483647 → innerProduct a b acc = some (acc + dotProduct a b)
  | x :: a, y :: b, acc, ha, hb, hacc, h => by
    have ha' : ∀ z ∈ a, 0 ≤ z := fun z hz => ha z (List.mem_cons_of_mem _ hz)
    have hb' : ∀ z ∈ b, 0 ≤ z := fun z hz => hb z (List.mem_cons_of_mem _ hz)
    have hxy := mul_nonneg (ha x (List.mem_cons_self _ _)) (hb y (List.mem_cons_self _ _))
    have hrest := dotProduct_nonneg ha' hb'
    rw [dotProduct_cons] at h ⊢
    simp (disch := omega) only [innerProduct, checkedInt_of_le, Option.bind_eq_bind,
      Option.some_bind]
    rw [innerProduct_eq ha' hb' (by omega) (by omega), add_assoc]
  | [], _, acc, _, _, _, _ => by simp [innerProduct]
  | _ :: _, [], acc, _, _, _, _ => by simp [innerProduct, dotProduct]

theorem linearIndex_append {dims x : List Int} (h : dims.length = x.length) (e y : Int) :
    linearIndex (dims ++ [e]) (x ++ [y]) = linearIndex dims x * e + y := by
  rw [linearIndex, List.zip_append h, List.foldl_append]
  rfl

theorem linearIndex_of_zero : ∀ {dims x : List Int}, (∀ y ∈ x, y = 0) → linearIndex dims x = 0
  | [], _, _ | _ :: _, [], _ => rfl
  | d :: dims, y :: x, h => by
    have hy := h y (List.mem_cons_self _ _)
    have hstep : linearIndex (d :: dims) (y :: x) = linearIndex dims x := by
      simp only [linearIndex, List.zip_cons_cons, List.foldl_cons, hy, zero_mul, add_zero]
    rw [hstep]
    exact linearIndex_of_zero fun y hy => h y (List.mem_cons_of_mem _ hy)

/-- A cell inside the array has a row-major index inside it. -/
theorem linearIndex_bounds {dims x : List Int}
    (h : List.Forall₂ (fun d y => 0 ≤ y ∧ y < d) dims x) :
    0 ≤ linearIndex dims x ∧ linearIndex dims x < dims.prod := by
  have key : ∀ {dims x : List Int}, List.Forall₂ (fun d y => 0 ≤ y ∧ y < d) dims x →
      ∀ acc p : Int, 0 ≤ acc → acc < p →
        0 ≤ (dims.zip x).foldl (fun acc p => acc * p.1 + p.2) acc ∧
          (dims.zip x).foldl (fun acc p => acc * p.1 + p.2) acc < p * dims.prod := by
    intro dims x h
    induction h with
    | nil => intro acc p h0 h1; simpa using ⟨h0, h1⟩
    | @cons d y dims x hy _ ih =>
      intro acc p h0 h1
      rw [List.zip_cons_cons, List.foldl_cons, List.prod_cons, ← mul_assoc]
      have hd : acc * d ≤ (p - 1) * d := Int.mul_le_mul_of_nonneg_right (by omega) (by omega)
      exact ih _ _ (add_nonneg (mul_nonneg h0 (by omega)) hy.1) (by linarith)
  simpa using key h 0 1 le_rfl one_pos

theorem weightedSum_append : ∀ {j adj : List Int}, j.length = adj.length → ∀ i a : Int,
    weightedSum (j ++ [i]) (adj ++ [a]) = a * (weightedSum j adj + i)
  | [], [], _, i, a => by simp [weightedSum]; ring
  | i0 :: j, a0 :: adj, h, i, a => by
    show i0 * (a0 :: (adj ++ [a])).prod + weightedSum (j ++ [i]) (adj ++ [a]) =
      a * (i0 * (a0 :: adj).prod + weightedSum j adj + i)
    rw [weightedSum_append (by simpa using h), List.prod_cons, List.prod_cons, List.prod_append,
      List.prod_singleton]
    ring
  | [], _ :: _, h, _, _ | _ :: _, [], h, _, _ => by simp at h

theorem Collapses.append {a b a' b' : List Int} (h : Collapses a b) (h' : Collapses a' b') :
    Collapses (a ++ a') (b ++ b') := by
  induction h with
  | nil => exact h'
  | keep d _ ih => exact .keep d ih
  | skip _ ih => exact .skip ih

theorem Collapses.reverse {a b : List Int} (h : Collapses a b) : Collapses a.reverse b.reverse := by
  induction h with
  | nil => exact .nil
  | keep d _ ih => simpa using ih.append (.keep d .nil)
  | skip _ ih => simpa using ih.append (.skip .nil)

/-- A dimension of size 1 can take any range of size 1, so it can be left out instead. -/
theorem Collapses.drop_one {dims sizes : List Int} (h : Collapses (1 :: dims) sizes) :
    Collapses dims sizes := by
  generalize hd : 1 :: dims = dims' at h
  induction h with
  | nil => cases hd
  | keep d h _ => cases hd; exact .skip h
  | skip _ ih => exact .skip (ih hd)

theorem Places.append {a b c d a' b' c' d' : List Int} (h : Places a b c d)
    (h' : Places a' b' c' d') : Places (a ++ a') (b ++ b') (c ++ c') (d ++ d') := by
  induction h with
  | nil => exact h'
  | keep n i _ ih => exact .keep n i ih
  | skip _ ih => exact .skip ih

theorem Places.reverse {a b c d : List Int} (h : Places a b c d) :
    Places a.reverse b.reverse c.reverse d.reverse := by
  induction h with
  | nil => exact .nil
  | keep n i _ ih => simpa using ih.append (.keep n i .nil)
  | skip _ ih => simpa using ih.append (.skip .nil)

theorem Places.drop_zero {dims sizes j x : List Int} (h : Places (1 :: dims) sizes (0 :: j) x) :
    Places dims sizes j x := by
  generalize hd : 1 :: dims = dims' at h
  generalize hj : 0 :: j = j' at h
  induction h with
  | nil => cases hd
  | keep d i h _ => cases hd; cases hj; exact .skip h
  | skip _ ih => exact .skip (ih hd hj)

/-- Where the interface's next dimension has the next range's size, the cell's next coordinate is
the position's, whether the range is kept or left out as one of size 1. -/
theorem Places.cons_same {d i : Int} {ds ss j x : List Int}
    (h : Places (d :: ds) (d :: ss) (i :: j) x) (hi : d = 1 → i = 0) :
    ∃ x', x = i :: x' ∧ Places ds ss j x' := by
  cases h with
  | keep _ _ h => exact ⟨_, rfl, h⟩
  | skip h =>
    obtain rfl := hi rfl
    exact ⟨_, rfl, h.drop_zero⟩

theorem Places.length {dims sizes j x : List Int} (h : Places dims sizes j x) :
    j.length = dims.length ∧ x.length = sizes.length := by
  induction h with
  | nil => exact ⟨rfl, rfl⟩
  | keep _ _ _ ih | skip _ ih => simpa using ih

theorem Places.zero_of_nil {sizes j x : List Int} (h : Places [] sizes j x) : ∀ y ∈ x, y = 0 := by
  generalize hd : ([] : List Int) = dims at h
  induction h with
  | nil => simp
  | keep => cases hd
  | skip _ ih => simpa using ih hd

/-- The cell at a relative position inside the interface lies inside the `PosHint`. -/
theorem Places.bounds {dims sizes j x : List Int} (h : Places dims sizes j x)
    (hj : List.Forall₂ (fun d i => 0 ≤ i ∧ i < d) dims j) :
    List.Forall₂ (fun s y => 0 ≤ y ∧ y < s) sizes x := by
  induction h with
  | nil => exact .nil
  | keep d i _ ih =>
    cases hj with
    | cons hi hj => exact .cons hi (ih hj)
  | skip _ ih => exact .cons (by decide) (ih hj)

theorem Collapses.exists_places {dims sizes : List Int} (h : Collapses dims sizes) :
    ∀ {j : List Int}, j.length = dims.length → ∃ x, Places dims sizes j x := by
  induction h with
  | nil => intro j hj; exact ⟨[], by simp_all [List.length_eq_zero]; exact .nil⟩
  | keep d _ ih =>
    intro j hj
    cases j with
    | nil => simp at hj
    | cons i j =>
      obtain ⟨x, hx⟩ := ih (by simpa using hj)
      exact ⟨i :: x, .keep d i hx⟩
  | skip _ ih =>
    intro j hj
    obtain ⟨x, hx⟩ := ih hj
    exact ⟨0 :: x, .skip hx⟩

/-- The loop of `AdjustIndices` over collapsed dimensions, run on the reversed lists, from an
entry whose products with the dimensions left fit in `int`: it finishes, gives an entry per
dimension, and the weighted sum of a relative position is the row-major index of its cell scaled by
the entry it started from. -/
theorem adjustDims_spec : ∀ {ds ss es : List Int} {mul : Int}, Collapses ds ss →
    ss.length = es.length → (∀ e ∈ es, 1 ≤ e) → 1 ≤ mul → mul * es.prod ≤ 2147483647 →
    ∃ adj, adjustDims ds ss es mul = some adj ∧ adj.length = ds.length ∧
      ∀ j x, List.Forall₂ (fun d i => d = 1 → i = 0) ds j → Places ds ss j x →
        weightedSum j.reverse adj.reverse = mul * linearIndex es.reverse x.reverse
  | [], ss, es, mul, _, hl, _, _, _ => ⟨[], by simp [adjustDims], rfl, fun j x hj hx => by
      cases hj
      rw [linearIndex_of_zero fun y hy => hx.zero_of_nil y (List.mem_reverse.1 hy)]
      simp [weightedSum]⟩
  | _ :: _, [], _, _, hc, _, _, _, _ => by cases hc
  | _ :: _, _ :: _, [], _, _, hl, _, _, _ => by simp at hl
  | d :: ds, s :: ss, e :: es, mul, hc, hl, hone, hmul, hfit => by
    have hl' : ss.length = es.length := by simpa using hl
    have hone' : ∀ e ∈ es, 1 ≤ e := fun e' he => hone e' (List.mem_cons_of_mem _ he)
    have he : 1 ≤ e := hone e (List.mem_cons_self _ _)
    have hp := List.one_le_prod hone'
    rw [List.prod_cons] at hfit
    have hrest : e * es.prod ≤ mul * (e * es.prod) :=
      le_mul_of_one_le_left (by positivity) hmul
    by_cases hds : d = s
    · subst hds
      have hc' : Collapses ds ss := by
        cases hc with
        | keep _ h => exact h
        | skip h => exact h.drop_one
      obtain ⟨adj, hadj, hlen, hspec⟩ := @adjustDims_spec ds ss es e hc' hl' hone' he
        (by linarith)
      refine ⟨mul :: adj, by simp [adjustDims, hadj], by simp [hlen], fun j x hj hx => ?_⟩
      obtain ⟨i, j', hi, hj', rfl⟩ := List.forall₂_cons_left_iff.1 hj
      obtain ⟨x', rfl, hx'⟩ := hx.cons_same hi
      simp only [List.reverse_cons]
      rw [weightedSum_append (by simp [hj'.length_eq, hlen]), hspec j' _ hj' hx',
        linearIndex_append (by simp [hx'.length.2, hl'])]
      ring
    · by_cases hs : s = 1
      · subst hs
        have hc' : Collapses (d :: ds) ss := by
          cases hc with
          | keep _ _ => exact absurd rfl hds
          | skip h => exact h
        have hme : 1 ≤ mul * e := one_le_mul_of_one_le_of_one_le hmul he
        have hmep : mul * e ≤ mul * e * es.prod := le_mul_of_one_le_right (by omega) hp
        obtain ⟨adj, hadj, hlen, hspec⟩ := @adjustDims_spec (d :: ds) ss es (mul * e) hc' hl'
          hone' hme (by rw [mul_assoc]; exact hfit)
        have hck : checkedInt (mul * e) = some (mul * e) :=
          checkedInt_of_le (by omega) (by rw [mul_assoc] at hmep; omega)
        refine ⟨adj, by simp [adjustDims, hds, hck, hadj], hlen, fun j x hj hx => ?_⟩
        cases hx with
        | keep _ _ _ => exact absurd rfl hds
        | skip hx =>
          rw [hspec j _ hj hx, List.reverse_cons, List.reverse_cons,
            linearIndex_append (by simp [hx.length.2, hl'])]
          ring
      · exfalso
        cases hc with
        | keep _ _ => exact hds rfl
        | skip _ => exact hs rfl

/-- The bounding union of a gang of equal dimensionality encloses every `PosHint` of it. -/
theorem getIndexSpace_encloses (d0 : GangIface) (gang : List GangIface)
    (hlen : ∀ d ∈ d0 :: gang, d.posHint.length = d0.posHint.length) :
    (getIndexSpace d0 gang).length = d0.posHint.length ∧
      ∀ d ∈ d0 :: gang, (getIndexSpace d0 gang).Encloses d.posHint := by
  have key : ∀ (gang : List GangIface) (acc : Space),
      (∀ d ∈ gang, d.posHint.length = acc.length) →
      (gang.foldl (fun s d => Space.union s d.posHint) acc).length = acc.length ∧
        (∀ s, acc.Encloses s → (gang.foldl (fun s d => Space.union s d.posHint) acc).Encloses s) ∧
        ∀ d ∈ gang, (gang.foldl (fun s d => Space.union s d.posHint) acc).Encloses d.posHint := by
    intro gang
    induction gang with
    | nil => intro acc _; exact ⟨rfl, fun _ h => h, fun _ h => absurd h (List.not_mem_nil _)⟩
    | cons d gang ih =>
      intro acc hl
      have hd : acc.length = d.posHint.length := (hl d (List.mem_cons_self _ _)).symm
      have hu : (Space.union acc d.posHint).length = acc.length := Space.length_union hd
      obtain ⟨h1, h2, h3⟩ := ih (Space.union acc d.posHint)
        fun e he => hu.symm ▸ hl e (List.mem_cons_of_mem _ he)
      refine ⟨h1.trans hu, fun s hs => h2 s (hs.union hd), fun e he => ?_⟩
      rcases List.mem_cons.1 he with rfl | he
      · exact h2 _ (Space.encloses_union_right hd)
      · exact h3 e he
  obtain ⟨h1, h2, h3⟩ := key gang d0.posHint fun d hd => hlen d (List.mem_cons_of_mem _ hd)
  refine ⟨h1, fun d hd => ?_⟩
  rcases List.mem_cons.1 hd with rfl | hd
  · exact h2 _ (Space.encloses_refl _)
  · exact h3 d hd

/-- Exact addressing by the placement `p` of interface `d` in a buffer of `size` bytes holding box `b`
with elements of `base` bytes: the address the task computes for every relative position `j`
inside the interface is the row-major index in `b` of the cell of `d`'s `PosHint` at `j`, and it
lies in the buffer. -/
def AddressesExactly (b : Space) (base size : Int) (d : GangIface) (p : Placement) : Prop :=
  ∀ j, List.Forall₂ (fun n i => 0 ≤ i ∧ i < n) d.dims j →
    (∃ x, Places d.dims d.posHint.dimensions j x) ∧
    ∀ x, Places d.dims d.posHint.dimensions j x →
      p.bufferOffset + base * weightedSum j p.bufferDimsAdj =
        base * b.linearIndexOf (List.zipWith (· + ·) d.posHint.origin x) ∧
      (0 ≤ base → 0 ≤ p.bufferOffset + base * weightedSum j p.bufferDimsAdj ∧
        p.bufferOffset + base * weightedSum j p.bufferDimsAdj ≤ size - base)

theorem placeIface_spec {b : Space} {d : GangIface} (hl : d.posHint.length = b.length)
    (hc : Collapses d.dims d.posHint.dimensions) (he : b.Encloses d.posHint)
    (hne : ∀ r ∈ d.posHint, r.isEmpty = false) {base : Int} (hbase : 0 < base)
    (hfit : b.dimensions.prod * base ≤ 2147483647) :
    ∃ p, placeIface b.origin (b.displaceNeg b.origin).dimensions (strides b.dimensions) base d =
      some p ∧ AddressesExactly b base (b.dimensions.prod * base) d p := by
  have hbo : b.length = b.origin.length := by simp [Space.origin]
  have hD : (b.displaceNeg b.origin).dimensions = b.dimensions := dimensions_displaceNeg hbo
  have hdims : (d.posHint.displaceNeg b.origin).dimensions = d.posHint.dimensions :=
    dimensions_displaceNeg (hl.trans hbo)
  have hlen : d.posHint.dimensions.reverse.length = b.dimensions.reverse.length := by
    simp [Space.dimensions, hl]
  have horig := origin_within hl he hne
  obtain ⟨hone, hoff0⟩ := one_le_of_cell horig
  have hprod : b.dimensions.prod ≤ b.dimensions.prod * base :=
    le_mul_of_one_le_right (by linarith [List.one_le_prod hone]) (by omega)
  obtain ⟨adj, hadj, -, hspec⟩ := @adjustDims_spec _ _ _ 1 hc.reverse hlen
    (fun e he => hone e (List.mem_reverse.1 he)) le_rfl (by simpa [List.prod_reverse] using hprod.trans hfit)
  have hol : (List.zipWith (· - ·) d.posHint.origin b.origin).length = b.dimensions.length :=
    horig.length_eq.symm
  -- the offset: the row-major index of the `PosHint`'s origin, in bytes
  obtain ⟨h0, h1⟩ := linearIndex_bounds horig
  have hoff : innerProduct (d.posHint.displaceNeg b.origin).origin (strides b.dimensions) 0 =
      some (linearIndex b.dimensions (List.zipWith (· - ·) d.posHint.origin b.origin)) := by
    rw [origin_displaceNeg (hl.trans hbo), innerProduct_eq hoff0
      (fun y hy => by linarith [one_le_strides hone y hy]) le_rfl (by
        rw [dotProduct_strides hol]; linarith), zero_add, dotProduct_strides hol]
  have hbytes := mul_le_mul_of_nonneg_right (Int.le_sub_one_of_lt h1) hbase.le
  have hck : checkedInt (linearIndex b.dimensions (List.zipWith (· - ·) d.posHint.origin b.origin) *
      base) = some (linearIndex b.dimensions (List.zipWith (· - ·) d.posHint.origin b.origin) *
      base) := checkedInt_of_le (by linarith [mul_nonneg h0 hbase.le]) (by linarith)
  refine ⟨_, by simp only [placeIface, hD, hdims, hadj, hoff, hck, Option.bind_eq_bind,
    Option.some_bind]; rfl, fun j hj => ⟨hc.exists_places hj.length_eq.symm, fun x hx => ?_⟩⟩
  have hw : weightedSum j adj.reverse = linearIndex b.dimensions x := by
    simpa using hspec j.reverse x.reverse
      (List.forall₂_reverse_iff.2 (hj.imp fun n i h hn => by omega)) hx.reverse
  have hxl : x.length = b.dimensions.length := by simp [hx.length.2, Space.dimensions, hl]
  have heq : linearIndex b.dimensions (List.zipWith (· - ·) d.posHint.origin b.origin) * base +
      base * weightedSum j adj.reverse =
      base * b.linearIndexOf (List.zipWith (· + ·) d.posHint.origin x) := by
    rw [Space.linearIndexOf, zipWith_add_sub, linearIndex_add hol hxl, hw]
    ring
  refine ⟨heq, fun _ => ?_⟩
  rw [heq]
  obtain ⟨h0, h1⟩ := linearIndex_bounds (cell_within hl he (hx.bounds hj))
  rw [Space.linearIndexOf]
  have hle := mul_le_mul_of_nonneg_left (Int.le_sub_one_of_lt h1) hbase.le
  exact ⟨mul_nonneg hbase.le h0, by linarith⟩

/-- `AdjustIndices` on a gang of non-empty `PosHint`s of equal dimensionality whose interfaces
collapse only ranges of size 1, with a buffer whose size fits in `int`: the buffer holds the
bounding box of the `PosHint`s, and every interface addresses exactly the cells of its `PosHint`,
inside the buffer. -/
theorem adjustIndices_addresses (d0 : GangIface) (gang : List GangIface)
    (hlen : ∀ d ∈ d0 :: gang, d.posHint.length = d0.posHint.length)
    (hcol : ∀ d ∈ d0 :: gang, Collapses d.dims d.posHint.dimensions)
    (hne : ∀ d ∈ d0 :: gang, ∀ r ∈ d.posHint, r.isEmpty = false) (hbase : 0 < d0.baseSize)
    (hfit : (getIndexSpace d0 gang).volume * d0.baseSize ≤ 2147483647) :
    ∃ lay, adjustIndices (d0 :: gang) = some lay ∧
      lay.size = (getIndexSpace d0 gang).volume * d0.baseSize ∧
      List.Forall₂ (AddressesExactly (getIndexSpace d0 gang) d0.baseSize lay.size)
        (d0 :: gang) lay.ifaces := by
  obtain ⟨hB, henc⟩ := getIndexSpace_encloses d0 gang hlen
  rw [Space.volume_eq_dimensions_prod] at hfit ⊢
  have hp := fun d hd => placeIface_spec ((hlen d hd).trans hB.symm) (hcol d hd) (henc d hd)
    (hne d hd) hbase hfit
  obtain ⟨ifaces, hm⟩ := exists_mapM_eq_some fun d hd => (hp d hd).imp fun _ h => h.1
  have hD : ((getIndexSpace d0 gang).displaceNeg (getIndexSpace d0 gang).origin).dimensions =
      (getIndexSpace d0 gang).dimensions := dimensions_displaceNeg (by simp [Space.origin])
  have hd0 := List.mem_cons_self d0 gang
  obtain ⟨hone, -⟩ := one_le_of_cell (origin_within ((hlen d0 hd0).trans hB.symm) (henc d0 hd0)
    (hne d0 hd0))
  have hprod : (getIndexSpace d0 gang).dimensions.prod ≤
      (getIndexSpace d0 gang).dimensions.prod * d0.baseSize :=
    le_mul_of_one_le_right (by linarith [List.one_le_prod hone]) (by omega)
  have hmv : mulVec ((getIndexSpace d0 gang).displaceNeg (getIndexSpace d0 gang).origin).dimensions =
      some (strides (getIndexSpace d0 gang).dimensions, (getIndexSpace d0 gang).dimensions.prod) := by
    rw [hD]
    exact mulVec_eq hone (by linarith)
  have hsize := checkedInt_of_le (by linarith [List.one_le_prod hone]) hfit
  have hadj : adjustIndices (d0 :: gang) = some ⟨(getIndexSpace d0 gang).dimensions.prod *
      d0.baseSize, ((getIndexSpace d0 gang).displaceNeg (getIndexSpace d0 gang).origin).dimensions, ifaces⟩ := by
    simp only [adjustIndices, hmv, hsize, hm, Option.bind_eq_bind, Option.some_bind]
    rfl
  refine ⟨_, hadj, rfl, ?_⟩
  refine ((List.forall₂_and_left _ _).2 ⟨fun d hd => hd, forall₂_of_mapM hm⟩).imp ?_
  rintro d p ⟨hd, hdp⟩
  obtain ⟨p', hp', hok⟩ := hp d hd
  rw [hdp, Option.some.injEq] at hp'
  subst hp'
  exact hok

/-- The first column and the last two columns of a 2 × 3 array of 4-byte elements. -/
def leftColumn : GangIface := ⟨[Range.beginEnd 0 2 (by decide), Range.beginEnd 0 1 (by decide)], [2], 4⟩

def rightColumns : GangIface :=
  ⟨[Range.beginEnd 0 2 (by decide), Range.beginEnd 1 3 (by decide)], [2, 2], 4⟩

example : (adjustIndices [leftColumn, rightColumns]).map (fun lay => (lay.size,
    lay.ifaces.map fun p => (p.bufferDimsAdj, p.bufferOffset))) = some (24, [([3], 0), ([3, 1], 4)]) := by
  decide

theorem columns_addresses :
    (∀ d ∈ [leftColumn, rightColumns], d.posHint.length = leftColumn.posHint.length) ∧
    (∀ d ∈ [leftColumn, rightColumns], Collapses d.dims d.posHint.dimensions) ∧
    (∀ d ∈ [leftColumn, rightColumns], ∀ r ∈ d.posHint, r.isEmpty = false) ∧
    0 < leftColumn.baseSize ∧
    (getIndexSpace leftColumn [rightColumns]).volume * leftColumn.baseSize ≤ 2147483647 ∧
    ∃ lay, adjustIndices [leftColumn, rightColumns] = some lay ∧
      lay.size = (getIndexSpace leftColumn [rightColumns]).volume * leftColumn.baseSize ∧
      List.Forall₂ (AddressesExactly (getIndexSpace leftColumn [rightColumns]) leftColumn.baseSize
        lay.size) [leftColumn, rightColumns] lay.ifaces :=
  have hlen : ∀ d ∈ [leftColumn, rightColumns], d.posHint.length = leftColumn.posHint.length := by
    decide
  have hcol : ∀ d ∈ [leftColumn, rightColumns], Collapses d.dims d.posHint.dimensions := by
    intro d hd
    rcases List.mem_pair.1 hd with rfl | rfl
    · exact .keep 2 (.skip .nil)
    · exact .keep 2 (.keep 2 .nil)
  have hne : ∀ d ∈ [leftColumn, rightColumns], ∀ r ∈ d.posHint, r.isEmpty = false := by decide
  have hbase : 0 < leftColumn.baseSize := by decide
  have hfit : (getIndexSpace leftColumn [rightColumns]).volume * leftColumn.baseSize ≤
      2147483647 := by decide
  ⟨hlen, hcol, hne, hbase, hfit, adjustIndices_addresses leftColumn [rightColumns] hlen hcol hne
    hbase hfit⟩

/-- A column of `2 ^ 29` elements of 8 bytes: its buffer would have `2 ^ 32` bytes, and the
product `mul * elemsizeof` of `AdjustIndices` leaves `int`. -/
def hugeColumn : GangIface := ⟨[Range.beginEnd 0 536870912 (by decide)], [536870912], 8⟩

theorem hugeColumn_overflows :
    Collapses hugeColumn.dims hugeColumn.posHint.dimensions ∧
      (∀ r ∈ hugeColumn.posHint, r.isEmpty = false) ∧ adjustIndices [hugeColumn] = none :=
  ⟨.keep _ .nil, by decide, by decide⟩

end BufferPreallocation

end Ladybirds
