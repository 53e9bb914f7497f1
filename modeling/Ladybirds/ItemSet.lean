import Mathlib

/-! # Item sets

`graph::ItemSet` stores a subset of a `PresDeque` base as 64-bit words, element `id` at bit
`(id - MinID_) % 64`. `ElementCount` passes each word to `__builtin_popcount`, which takes an
`unsigned int`, so elements in the upper half of a word are never counted.
-/

namespace Ladybirds

/-- `ItemSet`: the words `Vec_`, `MinID_`, and `ElementCountCorrection_` with its backup. -/
structure ItemSet where
  vec : List (BitVec 64)
  minID : Nat
  correction : Nat
  correctionBackup : Nat

namespace ItemSet

/-- `word(1) << (pos % wordsize)`. -/
def bitOf (pos : Nat) : BitVec 64 := 1#64 <<< (pos % 64)

/-- `GetID() - MinID_`, the element's position in the bit vector. -/
def pos (s : ItemSet) (id : Nat) : Nat := id - s.minID

/-- `Insert`. -/
def insert (s : ItemSet) (id : Nat) : ItemSet :=
  { s with vec := s.vec.modify (· ||| bitOf (s.pos id)) (s.pos id / 64) }

/-- `Remove` of one element. -/
def remove (s : ItemSet) (id : Nat) : ItemSet :=
  { s with vec := s.vec.modify (· &&& ~~~bitOf (s.pos id)) (s.pos id / 64) }

/-- `Contains` of one element. -/
def contains (s : ItemSet) (id : Nat) : Bool :=
  (s.vec.getD (s.pos id / 64) 0 &&& bitOf (s.pos id)) != 0

/-- `InsertAll`. -/
def insertAll (s : ItemSet) : ItemSet :=
  { s with vec := List.replicate s.vec.length (BitVec.allOnes 64),
           correction := s.correctionBackup }

/-- `RemoveAll`. -/
def removeAll (s : ItemSet) : ItemSet :=
  { s with vec := List.replicate s.vec.length 0, correction := 0 }

/-- `__builtin_popcount` of an `unsigned int`. -/
def popcount (x : BitVec 32) : Nat := (List.range 32).countP fun k => x.getLsbD k

/-- `ElementCount`: each word is converted to the builtin's 32-bit argument. -/
def elementCount (s : ItemSet) : Nat :=
  s.correction + (s.vec.map fun w => popcount (w.setWidth 32)).sum

/-- `operator &=`. -/
def andAssign (s o : ItemSet) : ItemSet := { s with vec := List.zipWith (· &&& ·) s.vec o.vec }

/-- `operator |=`. -/
def orAssign (s o : ItemSet) : ItemSet := { s with vec := List.zipWith (· ||| ·) s.vec o.vec }

/-- `Remove` of a set. -/
def removeSet (s o : ItemSet) : ItemSet :=
  { s with vec := List.zipWith (fun a b => a &&& ~~~b) s.vec o.vec }

/-- Bit `p % 64` of word `p / 64`; words past the end read as zero. -/
def memVec (vec : List (BitVec 64)) (p : Nat) : Bool := (vec.getD (p / 64) 0).getLsbD (p % 64)

/-- The set's bit at position `p`. -/
def mem (s : ItemSet) (p : Nat) : Bool := memVec s.vec p

@[simp] theorem getLsbD_bitOf (p k : Nat) : (bitOf p).getLsbD k = decide (k = p % 64) := by
  rw [Bool.eq_iff_iff]
  simp only [bitOf, BitVec.getLsbD_shiftLeft, BitVec.getLsbD_one, Bool.and_eq_true,
    decide_eq_true_eq, Bool.not_eq_true', decide_eq_false_iff_not]
  omega

theorem memVec_modify {vec : List (BitVec 64)} {i : Nat} (hi : i < vec.length)
    (f : BitVec 64 → BitVec 64) (p : Nat) :
    memVec (vec.modify f i) p =
      if p / 64 = i then (f (vec.getD i 0)).getLsbD (p % 64) else memVec vec p := by
  unfold memVec
  split
  case isTrue h => rw [h, List.getD_eq_getElem?_getD, List.getElem?_modify_eq,
    List.getD_eq_getElem?_getD, List.getElem?_eq_getElem hi]; rfl
  case isFalse h => rw [List.getD_eq_getElem?_getD, List.getElem?_modify_ne _ _ (Ne.symm h),
    ← List.getD_eq_getElem?_getD]

/-- Word-by-word combination keeps every bit combined, for operations that map `0, 0` to `0`. -/
theorem memVec_zipWith {f : BitVec 64 → BitVec 64 → BitVec 64} {g : Bool → Bool → Bool}
    (hf : ∀ a b k, (f a b).getLsbD k = g (a.getLsbD k) (b.getLsbD k)) (hg : g false false = false)
    {v w : List (BitVec 64)} (hlen : v.length = w.length) (p : Nat) :
    memVec (List.zipWith f v w) p = g (memVec v p) (memVec w p) := by
  unfold memVec
  simp only [List.getD_eq_getElem?_getD, List.getElem?_zipWith]
  rcases Nat.lt_or_ge (p / 64) v.length with h | h
  · rw [List.getElem?_eq_getElem h, List.getElem?_eq_getElem (hlen ▸ h)]
    exact hf _ _ _
  · rw [List.getElem?_eq_none h, List.getElem?_eq_none (hlen ▸ h)]
    simpa using hg.symm

@[simp] theorem length_insert (s : ItemSet) (id : Nat) :
    (s.insert id).vec.length = s.vec.length := List.length_modify _ _ _

@[simp] theorem length_remove (s : ItemSet) (id : Nat) :
    (s.remove id).vec.length = s.vec.length := List.length_modify _ _ _

theorem mem_insert {s : ItemSet} {id : Nat} (hid : s.pos id / 64 < s.vec.length) (p : Nat) :
    (s.insert id).mem p = (s.mem p || decide (p = s.pos id)) := by
  simp only [mem, insert, memVec_modify hid]
  split
  case isTrue h =>
    have : p % 64 = s.pos id % 64 ↔ p = s.pos id := by omega
    simp [memVec, h, this]
  case isFalse h =>
    have : p ≠ s.pos id := fun e => h (e ▸ rfl)
    simp [this]

theorem mem_remove {s : ItemSet} {id : Nat} (hid : s.pos id / 64 < s.vec.length) (p : Nat) :
    (s.remove id).mem p = (s.mem p && !decide (p = s.pos id)) := by
  simp only [mem, remove, memVec_modify hid]
  split
  case isTrue h =>
    have : p % 64 = s.pos id % 64 ↔ p = s.pos id := by omega
    simp [memVec, h, this, Nat.mod_lt]
  case isFalse h =>
    have : p ≠ s.pos id := fun e => h (e ▸ rfl)
    simp [this]

@[simp] theorem mem_removeAll (s : ItemSet) (p : Nat) : s.removeAll.mem p = false := by
  simp only [mem, memVec, removeAll, List.getD_eq_getElem?_getD, List.getElem?_replicate]
  split <;> simp

theorem mem_orAssign {s o : ItemSet} (hlen : s.vec.length = o.vec.length) (p : Nat) :
    (s.orAssign o).mem p = (s.mem p || o.mem p) :=
  memVec_zipWith (fun _ _ _ => BitVec.getLsbD_or) rfl hlen p

theorem mem_andAssign {s o : ItemSet} (hlen : s.vec.length = o.vec.length) (p : Nat) :
    (s.andAssign o).mem p = (s.mem p && o.mem p) :=
  memVec_zipWith (fun _ _ _ => BitVec.getLsbD_and) rfl hlen p

theorem mem_removeSet {s o : ItemSet} (hlen : s.vec.length = o.vec.length) (p : Nat) :
    (s.removeSet o).mem p = (s.mem p && !o.mem p) := by
  refine memVec_zipWith (g := fun a b => a && !b) (fun a b k => ?_) rfl hlen p
  by_cases hk : k < 64
  · simp [hk]
  · simp [BitVec.getLsbD_ge _ _ (Nat.le_of_not_lt hk)]

/-- `Contains` reads the element's bit. -/
theorem contains_eq_mem (s : ItemSet) (id : Nat) : s.contains id = s.mem (s.pos id) := by
  unfold contains mem memVec
  generalize s.vec.getD (s.pos id / 64) 0 = w
  cases hb : w.getLsbD (s.pos id % 64)
  · have : (w &&& bitOf (s.pos id)) = 0#64 := by
      ext k
      rw [BitVec.getLsbD_and, getLsbD_bitOf, BitVec.getLsbD_zero]
      by_cases hk : (k : Nat) = s.pos id % 64
      · rw [hk, hb, Bool.false_and]
      · rw [decide_eq_false hk, Bool.and_false]
    simp [this]
  · refine bne_iff_ne.2 fun h => ?_
    have := congrArg (·.getLsbD (s.pos id % 64)) h
    simp [hb] at this

theorem popcount_setWidth (w : BitVec 64) :
    popcount (w.setWidth 32) = (List.range 32).countP fun k => w.getLsbD k :=
  List.countP_congr fun k hk => by simp [List.mem_range.1 hk]

/-- The builtin's counts summed over the words: the set bits in the lower halves. -/
theorem sum_popcount : ∀ vec : List (BitVec 64),
    (vec.map fun w => popcount (w.setWidth 32)).sum =
      (List.range (vec.length * 64)).countP fun p => decide (p % 64 < 32) && memVec vec p
  | [] => rfl
  | w :: ws => by
    have hfirst : ((List.range 64).countP fun p => decide (p % 64 < 32) && memVec (w :: ws) p) =
        (List.range 32).countP fun k => w.getLsbD k := by
      rw [show List.range 64 = List.range 32 ++ (List.range 32).map (32 + ·) from
        List.range_add 32 32, List.countP_append, List.countP_map]
      have hlow : ((List.range 32).countP fun p => decide (p % 64 < 32) && memVec (w :: ws) p) =
          (List.range 32).countP fun k => w.getLsbD k :=
        List.countP_congr fun k hk => by
          have : k < 32 := List.mem_range.1 hk
          simp [memVec, Nat.div_eq_of_lt (by omega : k < 64), Nat.mod_eq_of_lt (by omega : k < 64),
            this]
      have hhigh : ((List.range 32).countP fun k =>
          decide ((32 + k) % 64 < 32) && memVec (w :: ws) (32 + k)) = 0 :=
        List.countP_eq_zero.2 fun k hk => by
          have : k < 32 := List.mem_range.1 hk
          simp [Nat.mod_eq_of_lt (by omega : 32 + k < 64)]
      simpa [Function.comp_def, hhigh] using hlow
    have hrest : ((List.range (ws.length * 64)).map (64 + ·)).countP
        (fun p => decide (p % 64 < 32) && memVec (w :: ws) p) =
        (List.range (ws.length * 64)).countP fun p => decide (p % 64 < 32) && memVec ws p := by
      rw [List.countP_map]
      refine List.countP_congr fun p _ => ?_
      have h1 : (64 + p) / 64 = p / 64 + 1 := by omega
      have h2 : (64 + p) % 64 = p % 64 := by omega
      simp [Function.comp_def, memVec, h1, h2]
    rw [List.map_cons, List.sum_cons, popcount_setWidth, sum_popcount ws, List.length_cons,
      Nat.succ_mul, Nat.add_comm _ 64, List.range_add, List.countP_append, hfirst, hrest]

/-- The set bits of the lower halves, counted through the base: every set bit is an element's,
and the elements have distinct positions inside the vector. -/
theorem countP_range_eq_countP_base {base : List Nat} {m N : Nat} {q : Nat → Bool}
    (hnd : base.Nodup) (hfit : ∀ e ∈ base, m ≤ e ∧ e - m < N)
    (hq : ∀ p, q p = true → ∃ e ∈ base, e - m = p) :
    (List.range N).countP q = base.countP fun e => q (e - m) := by
  have hinj : ∀ x ∈ base, ∀ y ∈ base, x - m = y - m → x = y := fun x hx y hy h => by
    have := (hfit x hx).1; have := (hfit y hy).1; omega
  have hperm : List.Perm ((List.range N).filter q) ((base.map (· - m)).filter q) := by
    refine (List.perm_ext_iff_of_nodup ((List.nodup_range N).filter _)
      ((hnd.map_on hinj).filter _)).2 fun p => ?_
    simp only [List.mem_filter, List.mem_range, List.mem_map]
    constructor
    · rintro ⟨-, hp⟩; exact ⟨hq p hp, hp⟩
    · rintro ⟨⟨e, he, rfl⟩, hp⟩; exact ⟨(hfit e he).2, hp⟩
  rw [List.countP_eq_length_filter, hperm.length_eq, ← List.countP_eq_length_filter,
    List.countP_map]
  rfl

/-- The sets a run over one base reaches: `RemoveAll`, then `Insert` and `Remove` of base
elements and `|=`, `&=` and `Remove(set)` with sets reached the same way. Every set of the run
has the base's `MinID_` and word count. -/
inductive Reachable (base : List Nat) (minID len : Nat) : ItemSet → Prop
  | removeAll {s : ItemSet} : s.minID = minID → s.vec.length = len →
      Reachable base minID len s.removeAll
  | insert {s : ItemSet} {e : Nat} : Reachable base minID len s → e ∈ base →
      Reachable base minID len (s.insert e)
  | remove {s : ItemSet} {e : Nat} : Reachable base minID len s → e ∈ base →
      Reachable base minID len (s.remove e)
  | orAssign {s o : ItemSet} : Reachable base minID len s → Reachable base minID len o →
      Reachable base minID len (s.orAssign o)
  | andAssign {s o : ItemSet} : Reachable base minID len s → Reachable base minID len o →
      Reachable base minID len (s.andAssign o)
  | removeSet {s o : ItemSet} : Reachable base minID len s → Reachable base minID len o →
      Reachable base minID len (s.removeSet o)

/-- What every reached set keeps: the base's shape, no correction, and set bits only at
positions of base elements. -/
structure Clean (base : List Nat) (minID len : Nat) (s : ItemSet) : Prop where
  minID_eq : s.minID = minID
  length_eq : s.vec.length = len
  correction_eq : s.correction = 0
  onBase : ∀ p, s.mem p = true → ∃ e ∈ base, e - minID = p

section Run

variable {base : List Nat} {minID len : Nat}

theorem Clean.zipWith {s o : ItemSet} {f : BitVec 64 → BitVec 64 → BitVec 64}
    (hs : Clean base minID len s) (ho : Clean base minID len o)
    (hmem : ∀ p, ({ s with vec := List.zipWith f s.vec o.vec } : ItemSet).mem p = true →
      s.mem p = true ∨ o.mem p = true) :
    Clean base minID len { s with vec := List.zipWith f s.vec o.vec } where
  minID_eq := hs.minID_eq
  length_eq := by simp [hs.length_eq, ho.length_eq]
  correction_eq := hs.correction_eq
  onBase p hp := (hmem p hp).elim (hs.onBase p) (ho.onBase p)

theorem Reachable.clean (hfit : ∀ e ∈ base, minID ≤ e ∧ e - minID < len * 64) {s : ItemSet}
    (h : Reachable base minID len s) : Clean base minID len s := by
  induction h with
  | removeAll hm hl => exact ⟨hm, hl ▸ List.length_replicate _ _, rfl, fun p h => by simp at h⟩
  | @insert s e _ he hs =>
    have hid : s.pos e / 64 < s.vec.length := by
      have := (hfit e he).2; rw [ItemSet.pos, hs.minID_eq, hs.length_eq]; omega
    refine ⟨hs.minID_eq, by simp [hs.length_eq], hs.correction_eq, fun p hp => ?_⟩
    rcases Bool.or_eq_true _ _ ▸ (mem_insert hid p ▸ hp) with hp | hp
    · exact hs.onBase p hp
    · exact ⟨e, he, by simpa [ItemSet.pos, hs.minID_eq, eq_comm] using hp⟩
  | @remove s e _ he hs =>
    have hid : s.pos e / 64 < s.vec.length := by
      have := (hfit e he).2; rw [ItemSet.pos, hs.minID_eq, hs.length_eq]; omega
    refine ⟨hs.minID_eq, by simp [hs.length_eq], hs.correction_eq, fun p hp => ?_⟩
    exact hs.onBase p (Bool.and_eq_true _ _ ▸ (mem_remove hid p ▸ hp)).1
  | @orAssign s o _ _ hs ho =>
    refine hs.zipWith ho fun p hp => ?_
    change (s.orAssign o).mem p = true at hp
    rwa [mem_orAssign (hs.length_eq.trans ho.length_eq.symm), Bool.or_eq_true] at hp
  | @andAssign s o _ _ hs ho =>
    refine hs.zipWith ho fun p hp => .inl ?_
    change (s.andAssign o).mem p = true at hp
    rw [mem_andAssign (hs.length_eq.trans ho.length_eq.symm), Bool.and_eq_true] at hp
    exact hp.1
  | @removeSet s o _ _ hs ho =>
    refine hs.zipWith ho fun p hp => .inl ?_
    change (s.removeSet o).mem p = true at hp
    rw [mem_removeSet (hs.length_eq.trans ho.length_eq.symm), Bool.and_eq_true] at hp
    exact hp.1

/-- What `ElementCount` returns on every set reached from `RemoveAll`: the number of contained
base elements whose bit lies in the lower half of its word. -/
theorem elementCount_of_reachable (hnd : base.Nodup)
    (hfit : ∀ e ∈ base, minID ≤ e ∧ e - minID < len * 64) {s : ItemSet}
    (h : Reachable base minID len s) :
    s.elementCount = base.countP fun e => s.contains e && decide ((e - minID) % 64 < 32) := by
  have hs := h.clean hfit
  rw [elementCount, hs.correction_eq, Nat.zero_add, sum_popcount, hs.length_eq,
    countP_range_eq_countP_base hnd hfit fun p hp => hs.onBase p (Bool.and_eq_true _ _ ▸ hp).2]
  refine List.countP_congr fun e _ => ?_
  simp [contains_eq_mem, mem, ItemSet.pos, hs.minID_eq, Bool.and_comm]

/-- `ElementCount` of a set whose bits are `row`, the element at position `p` contained when
`row[p]` is: the entries of `row` in the lower half of their word. -/
def lowHalfCount (row : List Bool) : Nat :=
  (List.range row.length).countP fun p => decide (p % 64 < 32) && row.getD p false

theorem elementCount_eq_lowHalfCount {s : ItemSet} {row : List Bool} (hc : s.correction = 0)
    (hrow : ∀ p, s.mem p = row.getD p false) (hlen : row.length ≤ s.vec.length * 64) :
    s.elementCount = lowHalfCount row := by
  obtain ⟨k, hk⟩ := Nat.exists_eq_add_of_le hlen
  have hbits : ∀ p, memVec s.vec p = row.getD p false := hrow
  have hpast : ((List.range k).map (row.length + ·)).countP
      (fun p => decide (p % 64 < 32) && memVec s.vec p) = 0 :=
    List.countP_eq_zero.2 fun p hp => by
      obtain ⟨j, -, rfl⟩ := List.mem_map.1 hp
      simp [hbits, List.getElem?_eq_none (Nat.le_add_right row.length j)]
  rw [elementCount, hc, Nat.zero_add, sum_popcount, hk, List.range_add, List.countP_append, hpast,
    Nat.add_zero, lowHalfCount]
  exact List.countP_congr fun p _ => by simp [hbits]

end Run

/-- A base of 33 elements with IDs `1, …, 33` fits one word: the set after `RemoveAll` and
`Insert` of the last one. -/
def lastOfOneWord : ItemSet := ItemSet.insert (ItemSet.removeAll ⟨[0], 1, 0, 0⟩) 33

/-- `lastOfOneWord` contains an element but counts none. -/
theorem elementCount_misses_upper_half :
    ItemSet.elementCount lastOfOneWord = 0 ∧
      (List.range' 1 33).countP (ItemSet.contains lastOfOneWord) = 1 := by
  decide

end ItemSet

end Ladybirds
