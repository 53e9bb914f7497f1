import Mathlib
import Ladybirds.OptionTraversal

/-! # Array merger

`ArrayMerger` finds for each integer type the narrowest element width its arrays need and merges
types of one width into shared arrays. The width comes from `__builtin_clzl` (undefined, so `none`,
at zero) of the maximum read as an unsigned word; `Finalize` asserts that it is at most 64 bits.
-/

namespace Ladybirds

namespace ArrayMerger

/-- `Signedness`. -/
inductive Signedness where
  | undef
  | unsigned
  | signed
  deriving DecidableEq, Repr

/-- The enumerators' values, which the sort of `Finalize` compares. -/
def Signedness.val : Signedness → Nat
  | .undef => 0
  | .unsigned => 1
  | .signed => 2

/-- `IntType`: the arrays map each array to its index. -/
structure IntType where
  bitsMin : Int
  bits : Int
  sign : Signedness
  arrays : List (List Int × Nat)
  index : Nat
  deriving DecidableEq, Repr

/-- `Data`. -/
structure Data where
  bits : Int
  signed : Bool
  arrays : List (List Int)
  deriving DecidableEq, Repr

/-- The state of an `ArrayMerger`: `Types_` in list order. -/
structure Merger where
  types : List IntType
  deriving DecidableEq, Repr

/-- `ErrorInvalidHandle`. -/
def errorInvalidHandle : Int := -1

/-- `ErrorWrongSign`. -/
def errorWrongSign : Int := -2

/-- `ErrorTooLarge`. -/
def errorTooLarge : Int := -3

/-- `AddType(bits, sign)`: an existing type of that width and sign, if both are given, or a new
one. -/
def addType (m : Merger) (bits : Int) (sign : Signedness) : Merger × Int :=
  match if 0 < bits ∧ sign ≠ .undef then
      m.types.find? fun t => decide (t.bits = bits ∧ t.sign = sign) else none with
  | some t => (m, t.index)
  | none => (⟨m.types ++ [⟨0, bits, sign, [], m.types.length⟩]⟩, m.types.length)

/-- `Arrays.emplace(array, Arrays.size())`: the array's index, new arrays numbered in order. -/
def emplace (arrays : List (List Int × Nat)) (a : List Int) : List (List Int × Nat) × Nat :=
  match arrays.lookup a with
  | some i => (arrays, i)
  | none => (arrays ++ [(a, arrays.length)], arrays.length)

/-- `__builtin_clzl` of an `int64_t` read as `unsigned long`: the zero bits above the highest set
one; undefined at zero. -/
def clzl (x : Int) : Option Nat :=
  let w := BitVec.ofInt 64 x
  if w = 0 then none else some ((List.range 64).reverse.takeWhile fun k => !w.getLsbD k).length

/-- The `switch` on the type's sign in `AddArray`: the type and `minbits` it goes on with, or an
error code. -/
def signStep (t : IntType) (needsign : Bool) (minbits : Int) : Except Int (IntType × Int) :=
  if needsign then
    match t.sign with
    | .signed => .ok (t, minbits)
    | .unsigned => .error errorWrongSign
    | .undef => .ok ({ t with sign := .signed, bitsMin := t.bitsMin + 1 }, minbits)
  else
    match t.sign with
    | .unsigned => .ok (t, minbits)
    | .signed => .ok (t, minbits + 1)
    | .undef => .ok (if t.bits = minbits then { t with sign := .unsigned } else t, minbits)

/-- The bits an array with minimum `mn` and maximum `mx` needs: `64 - sparebits + needsign`. -/
def minBits (mn mx : Int) : Option Int := do
  let spare ← clzl mx
  let spare ← if mn < 0 then (clzl (-mn - 1)).map (min spare) else pure spare
  pure (64 - spare + if mn < 0 then 1 else 0)

/-- The checks of `AddArray` on type `t`: the type as they leave it, and the error code returned
instead of entering the array; `none` where `__builtin_clzl` is undefined. -/
def checkArray (t : IntType) (array : List Int) : Option (IntType × Option Int) :=
  match array.min?, array.max? with
  | some mn, some mx => do
    let minbits ← minBits mn mx
    match signStep t (decide (mn < 0)) minbits with
    | .error e => pure (t, some e)
    | .ok (t, minbits) =>
      let t := { t with bitsMin := max t.bitsMin minbits }
      pure (t, if t.bits ≠ 0 ∧ t.bits < t.bitsMin then some errorTooLarge else none)
  | _, _ => pure (t, none)

/-- `AddArray(array, type)`: the array's index in the type, or an error code; `none` where
`__builtin_clzl` is undefined. -/
def addArray (m : Merger) (array : List Int) (type : Int) : Option (Merger × Int) :=
  match if type < 0 then none else m.types[type.toNat]? with
  | none => some (m, errorInvalidHandle)
  | some t => (checkArray t array).map fun (t, err) =>
    match err with
    | some e => (⟨m.types.set type.toNat t⟩, e)
    | none =>
      let (arrays, i) := emplace t.arrays array
      (⟨m.types.set type.toNat { t with arrays }⟩, i)

/-- `while(bits < t.BitsMin) bits *= 2;`, `fuel` bounding the iterations. -/
def doubleUntil : Nat → Int → Int → Int
  | 0, bits, _ => bits
  | fuel + 1, bits, bitsMin => if bits < bitsMin then doubleUntil fuel (bits * 2) bitsMin else bits

/-- The first loop of `Finalize` for one type: an open width becomes the least of `8, 16, 32, …`
that holds `BitsMin`; `none` where `assert(bits <= 64)` fails. -/
def fixWidth (t : IntType) : Option IntType :=
  if t.bits ≠ 0 then some t else
  let bits := doubleUntil t.bitsMin.toNat 8 t.bitsMin
  if 64 < bits then none
  else some { t with bits, sign := if bits = t.bitsMin ∧ t.sign = .undef then .unsigned else t.sign }

/-- The comparison `Types_.sort` uses. -/
def typeLess (t1 t2 : IntType) : Prop :=
  t1.bits < t2.bits ∨ (t1.bits = t2.bits ∧ t2.sign.val < t1.sign.val)

instance : DecidableRel typeLess := fun _ _ => inferInstanceAs (Decidable (_ ∨ _))

/-- Merging `t1`'s arrays into `t`'s: the new arrays of `t` and `t1indices`. -/
def mergeArrays (tArrays t1Arrays : List (List Int × Nat)) : List (List Int × Nat) × List Nat :=
  t1Arrays.foldl (fun acc e =>
      let (arrays, k) := emplace acc.1 e.1
      (arrays, acc.2.set e.2 k))
    (tArrays, List.replicate t1Arrays.length 0)

/-- The merge loop of `Finalize`: `t` is `*it`; every following type of the same width, and of
the same sign or an undefined one, is merged into it. The surviving types, `indices`, and for
each handle the `Index` of the type it points to. -/
def mergeRun : IntType → List IntType → List (List Nat) → List Nat →
    List IntType × List (List Nat) × List Nat
  | t, [], idx, tgt => ([t], idx, tgt)
  | t, t1 :: rest, idx, tgt =>
    if t1.bits ≠ t.bits ∨ (t1.sign ≠ t.sign ∧ t1.sign ≠ .undef) then
      let r := mergeRun t1 rest idx tgt
      (t :: r.1, r.2)
    else
      let (arrays, t1indices) := mergeArrays t.arrays t1.arrays
      mergeRun { t with arrays } rest (idx.set t1.index t1indices) (tgt.set t1.index t.index)

/-- The `Data` of a surviving type: each array at its index. -/
def dataOf (t : IntType) : Data :=
  ⟨t.bits, t.sign ≠ .unsigned,
    t.arrays.foldl (fun arrs e => arrs.set e.2 e.1) (List.replicate t.arrays.length [])⟩

/-- `Finalize`: `finaltypes`, `indices` and `data`; `none` where an assertion fails. -/
def finalize (m : Merger) : Option (List Nat × List (List Nat) × List Data) :=
  match m.types with
  | [] => some ([], [], [])
  | _ => do
    let types ← m.types.mapM fixWidth
    match types.insertionSort fun a b => ¬ typeLess b a with
    | [] => none
    | t :: rest =>
      let n := m.types.length
      let (survivors, idx, tgt) := mergeRun t rest (List.replicate n []) (List.range n)
      let idx := survivors.foldl (fun idx s => idx.set s.index (List.range s.arrays.length)) idx
      some (tgt.map (fun o => survivors.findIdx (·.index = o)), idx, survivors.map dataOf)

theorem doubleUntil_ge (bitsMin : Int) :
    ∀ (fuel : Nat) (bits : Int), 1 ≤ bits → bitsMin ≤ bits + fuel →
      bitsMin ≤ doubleUntil fuel bits bitsMin
  | 0, _, _, h => by simpa [doubleUntil] using h
  | fuel + 1, bits, hb, h => by
    unfold doubleUntil
    split
    · exact doubleUntil_ge bitsMin fuel _ (by omega) (by push_cast at h; omega)
    · omega

/-- A type of open width whose arrays need more than 64 bits fails the assertion. -/
theorem fixWidth_eq_none {t : IntType} (hbits : t.bits = 0) (hmin : 64 < t.bitsMin) :
    fixWidth t = none := by
  have := doubleUntil_ge t.bitsMin t.bitsMin.toNat 8 (by decide) (by omega)
  simp only [fixWidth, hbits, ne_eq, not_true_eq_false, if_false]
  rw [if_pos (by omega)]

theorem finalize_eq_none {m : Merger} {t : IntType} (ht : t ∈ m.types) (hbits : t.bits = 0)
    (hmin : 64 < t.bitsMin) : finalize m = none := by
  have hnone : m.types.mapM fixWidth = none := by
    cases h : m.types.mapM fixWidth with
    | none => rfl
    | some l =>
      obtain ⟨r, -, hr⟩ := exists_of_mem_mapM h t ht
      rw [fixWidth_eq_none hbits hmin] at hr
      cases hr
  unfold finalize
  split
  · simp_all
  · rw [hnone]; rfl

/-- `__builtin_clzl` of a negative `int64_t` is zero: its sign bit is set. -/
theorem clzl_of_neg {x : Int} (hlo : -2 ^ 63 ≤ x) (hx : x < 0) : clzl x = some 0 := by
  have hu : (BitVec.ofInt 64 x).toNat = (x + 2 ^ 64).toNat := by
    rw [BitVec.toNat_ofInt]; congr 1; omega
  have h63 : (BitVec.ofInt 64 x).getLsbD 63 = true := by
    rw [BitVec.getLsbD, hu, Nat.testBit_to_div_mod, decide_eq_true_eq]; omega
  have hne : BitVec.ofInt 64 x ≠ 0#64 := fun h => by rw [h] at h63; simp at h63
  have hrange : (List.range 64).reverse = 63 :: (List.range 63).reverse := by
    rw [List.range_succ, List.reverse_append]; rfl
  simp [clzl, hne, hrange, h63]

theorem clzl_of_pos {x : Int} (hx : 0 < x) (hhi : x < 2 ^ 63) : ∃ k, clzl x = some k := by
  have hne : BitVec.ofInt 64 x ≠ 0#64 := fun h => by
    have := congrArg BitVec.toNat h
    rw [BitVec.toNat_ofInt] at this; simp at this; omega
  exact ⟨_, if_neg hne⟩

/-- An array of negative numbers, one below `-1`, is taken to need 65 bits. -/
theorem minBits_of_neg {mn mx : Int} (hmn : -2 ^ 63 ≤ mn) (hmn' : mn < -1) (hmx : -2 ^ 63 ≤ mx)
    (hmx' : mx < 0) : minBits mn mx = some 65 := by
  obtain ⟨k, hk⟩ := clzl_of_pos (x := -mn - 1) (by omega) (by omega)
  simp [minBits, clzl_of_neg hmx hmx', hk, show mn < 0 by omega]

/-- `AddArray` accepts an array of negative numbers, one below `-1`, into a type of open width
that is not unsigned, and leaves the type needing at least 65 bits. -/
theorem checkArray_of_neg {t : IntType} {A : List Int} (hbits : t.bits = 0)
    (hsign : t.sign ≠ .unsigned) (hrange : ∀ x ∈ A, -2 ^ 63 ≤ x ∧ x < 0)
    (hlow : ∃ x ∈ A, x < -1) :
    ∃ t', checkArray t A = some (t', none) ∧ t'.bits = 0 ∧ 65 ≤ t'.bitsMin := by
  obtain ⟨x, hx, hx'⟩ := hlow
  obtain ⟨mn, hmn⟩ := Option.isSome_iff_exists.1 (List.isSome_min?_of_mem hx)
  obtain ⟨mx, hmx⟩ := Option.isSome_iff_exists.1 (List.isSome_max?_of_mem hx)
  have hmnA := List.min?_mem (fun a b => min_choice a b) hmn
  have hmxA := List.max?_mem (fun a b => max_choice a b) hmx
  have hmnx : mn ≤ x := ((List.le_min?_iff (fun _ _ _ => le_min_iff) hmn).1 le_rfl) x hx
  have hbits' := minBits_of_neg (hrange mn hmnA).1 (by omega) (hrange mx hmxA).1 (hrange mx hmxA).2
  have hneg : decide (mn < 0) = true := by simp; omega
  unfold checkArray
  rw [hmn, hmx]
  simp only [hbits', hneg, Option.bind_eq_bind, Option.some_bind]
  cases hs : t.sign with
  | unsigned => exact absurd hs hsign
  | undef => exact ⟨{ t with sign := .signed, bitsMin := max (t.bitsMin + 1) 65 },
      by simp [signStep, hs, hbits], hbits, le_max_right _ _⟩
  | signed => exact ⟨{ t with bitsMin := max t.bitsMin 65 }, by simp [signStep, hs, hbits], hbits,
      le_max_right _ _⟩

/-- Every `AddArray` of an array of negative numbers, one below `-1`, into a type of open width
that is not unsigned returns an index, and `Finalize` then fails its assertion. -/
theorem finalize_fails_of_negative_array {m : Merger} {h : Nat} {t : IntType} {A : List Int}
    (ht : m.types[h]? = some t) (hbits : t.bits = 0) (hsign : t.sign ≠ .unsigned)
    (hrange : ∀ x ∈ A, -2 ^ 63 ≤ x ∧ x < 0) (hlow : ∃ x ∈ A, x < -1) :
    ∃ m' i, addArray m A h = some (m', i) ∧ 0 ≤ i ∧ finalize m' = none := by
  obtain ⟨t', hc, hbits', hmin⟩ := checkArray_of_neg hbits hsign hrange hlow
  have hlt : h < m.types.length := (List.getElem?_eq_some_iff.1 ht).1
  refine ⟨⟨m.types.set h { t' with arrays := (emplace t'.arrays A).1 }⟩, (emplace t'.arrays A).2,
    by simp [addArray, ht, hc, show ¬(h : Int) < 0 by omega], by omega, finalize_eq_none (List.mem_set _ _ hlt _) hbits' (by dsimp only; omega)⟩

/-- `AddType()` and `AddArray({-2}, 0)`: the array gets index 0, and `Finalize` fails. -/
theorem arrayMerger_width_overflow :
    addType ⟨[]⟩ 0 .undef = (⟨[⟨0, 0, .undef, [], 0⟩]⟩, 0) ∧
    addArray ⟨[⟨0, 0, .undef, [], 0⟩]⟩ [-2] 0 = some (⟨[⟨65, 0, .signed, [([-2], 0)], 0⟩]⟩, 0) ∧
    finalize ⟨[⟨65, 0, .signed, [([-2], 0)], 0⟩]⟩ = none := by
  decide

end ArrayMerger

end Ladybirds
