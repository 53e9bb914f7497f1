import Mathlib.Data.List.Basic
import Mathlib.Data.List.Nodup

/-! # Preserving deques

`graph::PresDeque<t>` keeps element `id` at position `id - MinID_` of a `std::deque` and links the
free slots in the middle through the fields `ID_` and `PrevID_`. A pointer is a position; a failed
assertion, an access outside the deque and `front()` of an empty one are undefined and give `none`.
-/

namespace Ladybirds

/-- An element as `PresDeque` sees it: the element's value and `PresDequeElementBase`'s `ID_`
and `PrevID_`. -/
structure PresDequeElement (α : Type) where
  val : α
  id : Int
  prevId : Int
  deriving DecidableEq, Repr

/-- `IsAlive()`: the slot holds an element. -/
def PresDequeElement.isAlive {α : Type} (e : PresDequeElement α) : Bool := decide (e.prevId < 0)

/-- The element a slot holds. -/
def PresDequeElement.value? {α : Type} (e : PresDequeElement α) : Option α :=
  if e.isAlive then some e.val else none

@[simp] theorem PresDequeElement.value?_eq {α : Type} (e : PresDequeElement α) :
    e.value? = if e.isAlive then some e.val else none := rfl

/-- `PresDeque`: the slots of the underlying deque, `FirstSlot_`, `LastSlot_`, `MinID_`,
`MaxID_` and `Size_`. -/
structure PresDeque (α : Type) where
  slots : List (PresDequeElement α)
  firstSlot : Int
  lastSlot : Int
  minId : Int
  maxId : Int
  size : Nat
  deriving DecidableEq, Repr

namespace PresDeque

variable {α : Type}

/-- The default-constructed deque. -/
def empty : PresDeque α := ⟨[], 0, 0, 1, 0, 0⟩

/-- `clear()`. -/
def clear (_ : PresDeque α) : PresDeque α := empty

/-- `IteratorFromID(id)`: the position of ID `id`, after asserting `MinID_ ≤ id ≤ MaxID_`. -/
def iteratorFromId (d : PresDeque α) (id : Int) : Option Nat :=
  if id ≤ d.maxId ∧ d.minId ≤ id then some (id - d.minId).toNat else none

/-- The slot of ID `id`. -/
def get? (d : PresDeque α) (id : Int) : Option (PresDequeElement α) :=
  (d.iteratorFromId id).bind (d.slots[·]?)

/-- `FromID(id)`, which asserts that the slot holds an element. -/
def fromId (d : PresDeque α) (id : Int) : Option α :=
  (d.get? id).bind PresDequeElement.value?

/-- `IteratorFromID(id)->ID_ = v`. -/
def setId (d : PresDeque α) (id v : Int) : Option (PresDeque α) := do
  let k ← d.iteratorFromId id
  let e ← d.slots[k]?
  pure { d with slots := d.slots.set k { e with id := v } }

/-- `IteratorFromID(id)->PrevID_ = v`. -/
def setPrevId (d : PresDeque α) (id v : Int) : Option (PresDeque α) := do
  let k ← d.iteratorFromId id
  let e ← d.slots[k]?
  pure { d with slots := d.slots.set k { e with prevId := v } }

/-- `GetSlot(id)`: the deque with the slot reserved, the slot's ID and its position. The first
free slot is taken off the free list; without one, `emplace_back()` appends raw memory (the
non-constructing allocator leaves it as it is), here `raw`, and the new ID is `++MaxID_`. -/
def getSlot (d : PresDeque α) (raw : PresDequeElement α) : Option (PresDeque α × Int × Nat) :=
  if d.firstSlot = 0 then
    some ({ d with slots := d.slots ++ [raw], maxId := d.maxId + 1 }, d.maxId + 1, d.slots.length)
  else do
    let id := d.firstSlot
    let k ← d.iteratorFromId id
    let newslot ← d.slots[k]?
    let nextslotid := newslot.id
    let d := { d with firstSlot := nextslotid }
    let d ← (if nextslotid ≠ 0 then d.setPrevId nextslotid 0 else some { d with lastSlot := 0 })
    pure (d, id, k)

/-- `insert(value)`, and `emplace(args...)` alike: the element is constructed in the slot
`GetSlot` gives, which leaves `PrevID_ = -1`, and gets the slot's ID. Returns the ID. -/
def insert (d : PresDeque α) (v : α) : Option (PresDeque α × Int) := do
  let d := { d with size := d.size + 1 }
  let (d, id, k) ← d.getSlot ⟨v, 0, -1⟩
  pure ({ d with slots := d.slots.set k ⟨v, id, -1⟩ }, id)

/-- The lambda `cleanelem(elem)` of `erase`: on an empty deque it resets the IDs, at an element it
stops, and a free slot it unlinks from the free list and reports. -/
def cleanelem (d : PresDeque α) (elem : PresDequeElement α) : Option (Bool × PresDeque α) :=
  if d.slots.isEmpty then some (false, { d with minId := 1, maxId := 0 })
  else if elem.isAlive then some (false, d)
  else do
    let previd := elem.prevId
    let nextid := elem.id
    let d ← (if previd ≠ 0 then d.setId previd nextid else some { d with firstSlot := nextid })
    let d ← (if nextid ≠ 0 then d.setPrevId nextid previd else some { d with lastSlot := previd })
    pure (true, d)

/-- `do { pop_front(); ++MinID_; } while(cleanelem(front()));`, in at most `fuel` rounds;
`front()` on the deque the pop has emptied is undefined. -/
def popFront : Nat → PresDeque α → Option (PresDeque α)
  | 0, _ => none
  | fuel + 1, d =>
    match d.slots with
    | [] => none
    | _ :: rest => do
      let front ← rest.head?
      let (more, d) ← cleanelem { d with slots := rest, minId := d.minId + 1 } front
      if more then popFront fuel d else pure d

/-- `do { pop_back(); --MaxID_; } while(cleanelem(back()));`, in at most `fuel` rounds;
`back()` on the deque the pop has emptied is undefined. -/
def popBack : Nat → PresDeque α → Option (PresDeque α)
  | 0, _ => none
  | fuel + 1, d =>
    if d.slots.isEmpty then none
    else do
      let rest := d.slots.dropLast
      let back ← rest.getLast?
      let (more, d) ← cleanelem { d with slots := rest, maxId := d.maxId - 1 } back
      if more then popBack fuel d else pure d

/-- `erase(p)` for the element at position `p`, which must be where its `ID_` says it is. The
first and the last slot are popped; any other becomes the last entry of the free list. -/
def erase (d : PresDeque α) (p : Nat) : Option (PresDeque α) := do
  let e ← d.slots[p]?
  let d := { d with size := d.size - 1 }
  let id := e.id
  if id - d.minId ≠ p then none
  else if id = d.minId then popFront d.slots.length d
  else if id = d.maxId then popBack d.slots.length d
  else do
    let d := { d with slots := d.slots.set p { e with id := 0, prevId := d.lastSlot } }
    let d ← (if d.lastSlot = 0 then some { d with firstSlot := id } else d.setId d.lastSlot id)
    pure { d with lastSlot := id }

/-- A range-for over the slots: `operator*` skips free slots, relying on the last slot to hold an
element, and running past the end is undefined. -/
def iterate : List (PresDequeElement α) → Option (List α)
  | [] => some []
  | e :: rest =>
    if e.isAlive then (iterate rest).map (e.val :: ·)
    else if rest.isEmpty then none else iterate rest

/-- The operations a user performs: `insert`, `erase` through a pointer, `clear`. -/
inductive Op (α : Type) where
  | insert (v : α)
  | erase (p : Nat)
  | clear
  deriving DecidableEq, Repr

/-- One operation. -/
def step (d : PresDeque α) : Op α → Option (PresDeque α)
  | .insert v => (d.insert v).map Prod.fst
  | .erase p => d.erase p
  | .clear => some d.clear

/-- A run of operations. -/
def run (d : PresDeque α) : List (Op α) → Option (PresDeque α)
  | [] => some d
  | o :: os => (d.step o).bind (run · os)

theorem get?_eq (d : PresDeque α) (i : Int) :
    d.get? i = if i ≤ d.maxId ∧ d.minId ≤ i then d.slots[(i - d.minId).toNat]? else none := by
  unfold get? iteratorFromId; split <;> rfl

theorem window_of_get? {d : PresDeque α} {i : Int} {e : PresDequeElement α}
    (h : d.get? i = some e) : d.minId ≤ i ∧ i ≤ d.maxId ∧ (i - d.minId).toNat < d.slots.length := by
  rw [get?_eq] at h
  split_ifs at h with hi
  exact ⟨hi.2, hi.1, (List.getElem?_eq_some_iff.1 h).1⟩

theorem getElem?_of_get? {d : PresDeque α} {i : Int} {e : PresDequeElement α}
    (h : d.get? i = some e) : d.slots[(i - d.minId).toNat]? = some e := by
  obtain ⟨h1, h2, -⟩ := window_of_get? h
  rwa [get?_eq, if_pos ⟨h2, h1⟩] at h

theorem get?_of_getElem? {d : PresDeque α} {p : Nat} {e : PresDequeElement α}
    (hw : d.maxId + 1 = d.minId + d.slots.length) (hp : d.slots[p]? = some e) :
    d.get? (d.minId + p) = some e := by
  have := (List.getElem?_eq_some_iff.1 hp).1
  rw [get?_eq, if_pos (by omega), show (d.minId + p - d.minId).toNat = p by omega]
  exact hp

theorem mem_slots_iff {d : PresDeque α} (hw : d.maxId + 1 = d.minId + d.slots.length)
    (e : PresDequeElement α) : e ∈ d.slots ↔ ∃ i, d.get? i = some e := by
  rw [List.mem_iff_getElem?]
  constructor
  · rintro ⟨k, hk⟩; exact ⟨_, get?_of_getElem? hw hk⟩
  · rintro ⟨i, hi⟩; exact ⟨_, getElem?_of_get? hi⟩

/-- A write to the slot of an ID changes what that ID reads and nothing else. -/
theorem get?_set {d : PresDeque α} {i : Int} {e : PresDequeElement α} (h : d.get? i = some e)
    (x : PresDequeElement α) {f l : Int} {n : Nat} (j : Int) :
    (PresDeque.mk (d.slots.set (i - d.minId).toNat x) f l d.minId d.maxId n).get? j =
      if j = i then some x else d.get? j := by
  obtain ⟨h1, h2, hk⟩ := window_of_get? h
  rw [get?_eq, get?_eq]
  by_cases hj : j = i
  · subst hj; simp [h1, h2, hk]
  · simp only [hj, if_false, List.getElem?_set]
    split_ifs <;> first | rfl | omega

/-- `pop_front(); ++MinID_;` forgets the first ID. -/
theorem get?_popFront {d : PresDeque α} {x : PresDequeElement α} {rest : List (PresDequeElement α)}
    (h : d.slots = x :: rest) (j : Int) :
    { d with slots := rest, minId := d.minId + 1 }.get? j = if j = d.minId then none else d.get? j := by
  rw [get?_eq, get?_eq, h]
  dsimp only
  split_ifs <;> first | rfl | omega | skip
  rw [List.getElem?_cons, if_neg (by omega)]
  congr 1; omega

/-- `pop_back(); --MaxID_;` forgets the last ID. -/
theorem get?_popBack {d : PresDeque α} (hw : d.maxId + 1 = d.minId + d.slots.length) (j : Int) :
    { d with slots := d.slots.dropLast, maxId := d.maxId - 1 }.get? j =
      if j = d.maxId then none else d.get? j := by
  rw [get?_eq, get?_eq]
  dsimp only
  split_ifs <;> first | rfl | omega | skip
  rw [List.getElem?_dropLast, if_pos (by omega)]

/-- `emplace_back(); ++MaxID_;` adds the slot `x` under the next ID. -/
theorem get?_emplaceBack {d : PresDeque α} (hw : d.maxId + 1 = d.minId + d.slots.length)
    (x : PresDequeElement α) (j : Int) :
    { d with slots := d.slots ++ [x], maxId := d.maxId + 1 }.get? j =
      if j = d.maxId + 1 then some x else d.get? j := by
  rw [get?_eq, get?_eq]
  dsimp only
  split_ifs <;> first | rfl | omega | skip
  · rw [List.getElem?_append_right (by omega), show (j - d.minId).toNat - d.slots.length = 0 by omega]
    rfl
  · rw [List.getElem?_append_left (by omega)]

theorem get?_of_eq {d d' : PresDeque α} (hs : d'.slots = d.slots) (hmin : d'.minId = d.minId)
    (hmax : d'.maxId = d.maxId) : d'.get? = d.get? := by
  funext j; rw [get?_eq, get?_eq, hs, hmin, hmax]

@[simp] theorem get?_mk (d : PresDeque α) (f l : Int) (n : Nat) (j : Int) :
    (PresDeque.mk d.slots f l d.minId d.maxId n).get? j = d.get? j := rfl

@[simp] theorem fromId_mk (d : PresDeque α) (f l : Int) (n : Nat) (j : Int) :
    (PresDeque.mk d.slots f l d.minId d.maxId n).fromId j = d.fromId j := rfl

theorem setId_eq {d : PresDeque α} {i : Int} {e : PresDequeElement α} (h : d.get? i = some e)
    (v : Int) :
    d.setId i v = some { d with slots := d.slots.set (i - d.minId).toNat { e with id := v } } := by
  obtain ⟨h1, h2, -⟩ := window_of_get? h
  simp [setId, iteratorFromId, h1, h2, getElem?_of_get? h]

theorem setPrevId_eq {d : PresDeque α} {i : Int} {e : PresDequeElement α} (h : d.get? i = some e)
    (v : Int) :
    d.setPrevId i v = some { d with slots := d.slots.set (i - d.minId).toNat { e with prevId := v } } := by
  obtain ⟨h1, h2, -⟩ := window_of_get? h
  simp [setPrevId, iteratorFromId, h1, h2, getElem?_of_get? h]

/-- The slot of ID `i` is free. -/
def IsFree (d : PresDeque α) (i : Int) : Prop := ∃ e, d.get? i = some e ∧ e.isAlive = false

/-- The free-list links of the slot of ID `i`: its `PrevID_` and its `ID_`. -/
def links (d : PresDeque α) (i : Int) : Option (Int × Int) :=
  (d.get? i).map fun e => (e.prevId, e.id)

@[simp] theorem links_mk (d : PresDeque α) (f l : Int) (n : Nat) (j : Int) :
    (PresDeque.mk d.slots f l d.minId d.maxId n).links j = d.links j := rfl

/-- The slots of `l` are linked in order: each one's `PrevID_` is the one before it (`p` for the
first) and its `ID_` the one after it (`q` for the last). -/
def FreeChain (d : PresDeque α) : Int → List Int → Int → Prop
  | _, [], _ => True
  | p, a :: l, q => d.links a = some (p, l.headD q) ∧ FreeChain d a l q

theorem freeChain_append {d : PresDeque α} {p q : Int} (l₁ l₂ : List Int) :
    FreeChain d p (l₁ ++ l₂) q ↔
      FreeChain d p l₁ (l₂.headD q) ∧ FreeChain d (l₁.getLastD p) l₂ q := by
  induction l₁ generalizing p with
  | nil => simp [FreeChain]
  | cons a l ih =>
    rw [List.cons_append, FreeChain, FreeChain, ih, List.getLastD_cons, and_assoc]
    cases l <;> rfl

/-- A chain reads the links of its own slots only. -/
theorem freeChain_congr {d d' : PresDeque α} {p q : Int} {l : List Int}
    (h : ∀ a ∈ l, d'.links a = d.links a) : FreeChain d' p l q ↔ FreeChain d p l q := by
  induction l generalizing p with
  | nil => rfl
  | cons a l ih =>
    rw [FreeChain, FreeChain, h a (List.mem_cons_self _ _),
      ih fun b hb => h b (List.mem_cons_of_mem _ hb)]

/-- Re-pointing the `ID_` of a chain's last slot. -/
theorem freeChain_snoc_next {d d' : PresDeque α} {p q q' c : Int} {l : List Int}
    (h : FreeChain d p (l ++ [c]) q) (hl : ∀ a ∈ l, d'.links a = d.links a)
    (hc : d'.links c = (d.links c).map fun x => (x.1, q')) : FreeChain d' p (l ++ [c]) q' := by
  rw [freeChain_append] at h ⊢
  refine ⟨(freeChain_congr hl).2 h.1, ?_, trivial⟩
  rw [hc, h.2.1]; rfl

/-- Re-pointing the `PrevID_` of a chain's first slot. -/
theorem freeChain_cons_prev {d d' : PresDeque α} {p p' q b : Int} {l : List Int}
    (h : FreeChain d p (b :: l) q) (hl : ∀ a ∈ l, d'.links a = d.links a)
    (hb : d'.links b = (d.links b).map fun x => (p', x.2)) : FreeChain d' p' (b :: l) q := by
  refine ⟨?_, (freeChain_congr hl).2 h.2⟩
  rw [hb, h.1]; rfl

/-- The free list `fl`, in order: its slots are linked through `ID_` and `PrevID_`, with
`FirstSlot_` and `LastSlot_` at its ends. -/
structure Linked (d : PresDeque α) (fl : List Int) : Prop where
  nodup : fl.Nodup
  first : d.firstSlot = fl.headD 0
  last : d.lastSlot = fl.getLastD 0
  chain : FreeChain d 0 fl 0

/-- What every state keeps, at either end: IDs from 1, a window of IDs as long as the deque,
each element at the position of its ID, `Size_` the number of elements, and the free slots
exactly the free list `fl`. -/
structure Core (d : PresDeque α) (fl : List Int) : Prop where
  minId_pos : 0 < d.minId
  window : d.maxId + 1 = d.minId + d.slots.length
  live_id : ∀ i e, d.get? i = some e → e.isAlive → e.id = i
  size_eq : d.size = d.slots.countP (·.isAlive)
  free_iff : ∀ i, i ∈ fl ↔ d.IsFree i
  linked : Linked d fl

/-- A well-formed deque: `Core` for some free list, and both ends hold elements. -/
structure Wf (d : PresDeque α) : Prop where
  core : ∃ fl, Core d fl
  front_live : ∀ e, d.get? d.minId = some e → e.isAlive
  back_live : ∀ e, d.get? d.maxId = some e → e.isAlive

theorem Core.pos_of_mem {d : PresDeque α} {fl : List Int} (hc : Core d fl) {i : Int}
    (hi : i ∈ fl) : 0 < i := by
  obtain ⟨e, he, -⟩ := (hc.free_iff i).1 hi
  have := (window_of_get? he).1
  have := hc.minId_pos
  omega

/-- `d'` differs from `d` at most in `FirstSlot_`, `LastSlot_` and the links of free slots. -/
structure Relinked (d d' : PresDeque α) : Prop where
  minId : d'.minId = d.minId
  maxId : d'.maxId = d.maxId
  size : d'.size = d.size
  length : d'.slots.length = d.slots.length
  count : d'.slots.countP (·.isAlive) = d.slots.countP (·.isAlive)
  get? : ∀ j, d'.get? j = d.get? j ∨
    ∃ e e', d.get? j = some e ∧ d'.get? j = some e' ∧ e.isAlive = false ∧ e'.isAlive = false

namespace Relinked

variable {d d' d'' : PresDeque α}

theorem refl_of_eq (hs : d'.slots = d.slots) (hmin : d'.minId = d.minId)
    (hmax : d'.maxId = d.maxId) (hsize : d'.size = d.size) : Relinked d d' :=
  ⟨hmin, hmax, hsize, by rw [hs], by rw [hs], fun _ => .inl (by rw [get?_of_eq hs hmin hmax])⟩

theorem trans (h₁ : Relinked d d') (h₂ : Relinked d' d'') : Relinked d d'' := by
  refine ⟨h₂.minId.trans h₁.minId, h₂.maxId.trans h₁.maxId, h₂.size.trans h₁.size,
    h₂.length.trans h₁.length, h₂.count.trans h₁.count, fun j => ?_⟩
  rcases h₂.get? j with h | ⟨e, e', h, h', hd, hd'⟩ <;> rcases h₁.get? j with k | ⟨f, f', k, k', kd, kd'⟩
  · exact .inl (h.trans k)
  · exact .inr ⟨f, f', k, h.trans k', kd, kd'⟩
  · exact .inr ⟨e, e', k ▸ h, h', hd, hd'⟩
  · exact .inr ⟨f, e', k, h', kd, hd'⟩

/-- An element reads the same after a relink. -/
theorem get?_live (h : Relinked d d') {j : Int} {e : PresDequeElement α} :
    (d'.get? j = some e ∧ e.isAlive) ↔ (d.get? j = some e ∧ e.isAlive) := by
  rcases h.get? j with k | ⟨f, f', k, k', kd, kd'⟩
  · rw [k]
  · rw [k, k']
    constructor <;> rintro ⟨⟨⟩, he⟩ <;> simp_all

theorem isFree (h : Relinked d d') (j : Int) : d'.IsFree j ↔ d.IsFree j := by
  unfold IsFree
  rcases h.get? j with k | ⟨f, f', k, k', kd, kd'⟩
  · rw [k]
  · rw [k, k']; simp [kd, kd']

theorem fromId (h : Relinked d d') : d'.fromId = d.fromId := by
  funext j
  unfold PresDeque.fromId
  rcases h.get? j with k | ⟨f, f', k, k', kd, kd'⟩
  · rw [k]
  · rw [k, k']; simp [kd, kd']

theorem live_of (h : Relinked d d') {j : Int} (hl : ∀ e, d.get? j = some e → e.isAlive) :
    ∀ e, d'.get? j = some e → e.isAlive := fun e he => by
  rcases h.get? j with k | ⟨f, f', k, k', kd, -⟩
  · exact hl e (k ▸ he)
  · exact absurd (hl f k) (by simp [kd])

/-- A relinked state keeps `Core` once its free list is linked again. -/
theorem core {fl : List Int} (h : Relinked d d') (hc : Core d fl) (hl : Linked d' fl) :
    Core d' fl where
  minId_pos := h.minId ▸ hc.minId_pos
  window := by rw [h.minId, h.maxId, h.length]; exact hc.window
  live_id i e he hl := hc.live_id i e ((h.get?_live).1 ⟨he, hl⟩).1 hl
  size_eq := by rw [h.size, h.count]; exact hc.size_eq
  free_iff i := by rw [h.isFree]; exact hc.free_iff i
  linked := hl

end Relinked

/-- Writing a link of a free slot is a relink. -/
theorem relinked_set {d : PresDeque α} {i : Int} {e e' : PresDequeElement α} (h : d.get? i = some e)
    (hd : e.isAlive = false) (hd' : e'.isAlive = false) :
    Relinked d { d with slots := d.slots.set (i - d.minId).toNat e' } := by
  obtain ⟨hk, hslot⟩ := List.getElem?_eq_some_iff.1 (getElem?_of_get? h)
  refine ⟨rfl, rfl, rfl, List.length_set .., ?_, fun j => ?_⟩
  · rw [List.countP_set _ _ _ _ hk, hslot, hd, hd']; simp
  · rw [get?_set h]
    split_ifs with hj
    · exact .inr ⟨e, e', hj ▸ h, rfl, hd, hd'⟩
    · exact .inl rfl

@[simp] theorem links_set {d : PresDeque α} {i : Int} {e : PresDequeElement α}
    (h : d.get? i = some e) (x : PresDequeElement α) {f l : Int} {n : Nat} (j : Int) :
    (PresDeque.mk (d.slots.set (i - d.minId).toNat x) f l d.minId d.maxId n).links j =
      if j = i then some (x.prevId, x.id) else d.links j := by
  unfold links; rw [get?_set h]; split_ifs <;> rfl

theorem Linked.congr {d d' : PresDeque α} {fl : List Int} (h : Linked d fl)
    (hs : d'.slots = d.slots) (hmin : d'.minId = d.minId) (hmax : d'.maxId = d.maxId)
    (hf : d'.firstSlot = d.firstSlot) (hl : d'.lastSlot = d.lastSlot) : Linked d' fl where
  nodup := h.nodup
  first := hf.trans h.first
  last := hl.trans h.last
  chain := by
    have : d'.links = d.links := by funext j; unfold links; rw [get?_of_eq hs hmin hmax]
    exact (freeChain_congr fun a _ => congrFun this a).2 h.chain

private theorem headD_of_ne_nil {l : List Int} (h : l ≠ []) (a b : Int) : l.headD a = l.headD b := by
  cases l
  · exact absurd rfl h
  · rfl

private theorem getLastD_of_ne_nil {l : List Int} (h : l ≠ []) (a b : Int) :
    l.getLastD a = l.getLastD b := by
  obtain ⟨l', c, rfl⟩ := List.eq_nil_or_concat l |>.resolve_left h
  simp [List.getLastD_eq_getLast?]

/-- The first half of unlinking a free slot whose predecessors on the free list are `l₁`:
`if(previd) IteratorFromID(previd)->ID_ = nextid; else FirstSlot_ = nextid;`. -/
theorem unlink_prev {d : PresDeque α} {l₁ : List Int} {i q : Int} (hnd : l₁.Nodup)
    (hfree : ∀ a ∈ l₁, 0 < a ∧ d.IsFree a) (hchain : FreeChain d 0 l₁ i)
    (hfirst : d.firstSlot = l₁.headD i) :
    ∃ d₁, (if l₁.getLastD 0 ≠ 0 then d.setId (l₁.getLastD 0) q
        else some { d with firstSlot := q }) = some d₁ ∧
      Relinked d d₁ ∧ d₁.lastSlot = d.lastSlot ∧ d₁.firstSlot = l₁.headD q ∧
      FreeChain d₁ 0 l₁ q ∧ ∀ a ∉ l₁, d₁.links a = d.links a := by
  rcases List.eq_nil_or_concat l₁ with rfl | ⟨l₀, c, rfl⟩
  · exact ⟨_, if_neg (by simp), Relinked.refl_of_eq rfl rfl rfl rfl, rfl, rfl, trivial,
      fun a _ => links_mk ..⟩
  · simp only [List.concat_eq_append] at *
    obtain ⟨hc, ec, hec, hdead⟩ := hfree c (by simp)
    have hc0 : (l₀ ++ [c]).getLastD 0 = c := by simp [List.getLastD_eq_getLast?]
    have hnc : ∀ a ∈ l₀, a ≠ c := fun a ha hac =>
      (List.nodup_append.1 hnd).2.2 ha (by simp [hac])
    rw [hc0, if_pos hc.ne', setId_eq hec]
    refine ⟨_, rfl, relinked_set hec hdead (by simpa [PresDequeElement.isAlive] using hdead), rfl,
      hfirst.trans (headD_of_ne_nil (by simp) _ _), ?_, fun a ha => ?_⟩
    · refine freeChain_snoc_next hchain (fun a ha => ?_) ?_
      · rw [links_set hec, if_neg (hnc a ha)]
      · rw [links_set hec, if_pos rfl]; simp [links, hec]
    · rw [links_set hec, if_neg (by rintro rfl; simp at ha)]

/-- The second half of unlinking a free slot whose successors on the free list are `l₂`:
`if(nextid) IteratorFromID(nextid)->PrevID_ = previd; else LastSlot_ = previd;`. -/
theorem unlink_next {d : PresDeque α} {l₂ : List Int} {i p : Int} (hp : 0 ≤ p) (hnd : l₂.Nodup)
    (hfree : ∀ a ∈ l₂, 0 < a ∧ d.IsFree a) (hchain : FreeChain d i l₂ 0)
    (hlast : d.lastSlot = l₂.getLastD i) :
    ∃ d₂, (if l₂.headD 0 ≠ 0 then d.setPrevId (l₂.headD 0) p
        else some { d with lastSlot := p }) = some d₂ ∧
      Relinked d d₂ ∧ d₂.firstSlot = d.firstSlot ∧ d₂.lastSlot = l₂.getLastD p ∧
      FreeChain d₂ p l₂ 0 ∧ ∀ a ∉ l₂, d₂.links a = d.links a := by
  cases l₂ with
  | nil =>
    exact ⟨_, if_neg (by simp), Relinked.refl_of_eq rfl rfl rfl rfl, rfl, rfl, trivial,
      fun a _ => links_mk ..⟩
  | cons b r =>
    obtain ⟨hb, eb, heb, hdead⟩ := hfree b (List.mem_cons_self _ _)
    rw [List.headD_cons, if_pos hb.ne', setPrevId_eq heb]
    have hnd : b ∉ r := (List.nodup_cons.1 hnd).1
    refine ⟨_, rfl, relinked_set heb hdead (by simp [PresDequeElement.isAlive]; omega), rfl,
      hlast.trans (getLastD_of_ne_nil (by simp) _ _), ?_, fun a ha => ?_⟩
    · refine freeChain_cons_prev hchain (fun a ha => ?_) ?_
      · rw [links_set heb, if_neg (by rintro rfl; exact hnd ha)]
      · rw [links_set heb, if_pos rfl]; simp [links, heb]
    · rw [links_set heb, if_neg (by rintro rfl; simp at ha)]

private theorem getLastD_nonneg {l : List Int} (h : ∀ a ∈ l, 0 < a) : 0 ≤ l.getLastD 0 := by
  rcases List.eq_nil_or_concat l with rfl | ⟨l', c, rfl⟩
  · rfl
  · have := h c (by simp)
    rw [List.concat_eq_append, List.getLastD_eq_getLast?, List.getLast?_append,
      List.getLast?_singleton]
    exact this.le

/-- `cleanelem` at the free slot `i`, with `l₁` before it and `l₂` after it on the free list,
unlinks it. -/
theorem cleanelem_free {d : PresDeque α} {l₁ l₂ : List Int} {i : Int} {e : PresDequeElement α}
    (hc : Core d (l₁ ++ i :: l₂)) (he : d.get? i = some e) :
    ∃ d', d.cleanelem e = some (true, d') ∧ Relinked d d' ∧ Linked d' (l₁ ++ l₂) := by
  have hfl := hc.linked
  have hmem : ∀ a ∈ l₁ ++ i :: l₂, 0 < a ∧ d.IsFree a :=
    fun a ha => ⟨hc.pos_of_mem ha, (hc.free_iff a).1 ha⟩
  obtain ⟨-, e', he', hdead⟩ := hmem i (by simp)
  obtain rfl : e' = e := Option.some.inj (he'.symm.trans he)
  obtain ⟨hnd₁, hnd₂, hdisj⟩ := List.nodup_append.1 hfl.nodup
  obtain ⟨hc₁, hli, hc₂⟩ := (freeChain_append _ _).1 hfl.chain
  simp only [links, he', Option.map_some', Option.some.injEq, Prod.mk.injEq] at hli
  obtain ⟨d₁, h₁, r₁, hlast₁, hfirst₁, hch₁, hother₁⟩ := unlink_prev (q := l₂.headD 0) hnd₁
    (fun a ha => hmem a (by simp [ha])) hc₁ (by rw [hfl.first]; cases l₁ <;> rfl)
  have hlast : d₁.lastSlot = l₂.getLastD i := by
    rw [hlast₁, hfl.last]
    simp [List.getLastD_eq_getLast?, List.getLast?_append, List.getLast?_cons]
  obtain ⟨d₂, h₂, r₂, hfirst₂, hlast₂, hch₂, hother₂⟩ := unlink_next (d := d₁) (i := i)
    (p := l₁.getLastD 0)
    (getLastD_nonneg fun a ha => (hmem a (by simp [ha])).1) (List.nodup_cons.1 hnd₂).2
    (fun a (ha : a ∈ l₂) => ⟨(hmem a (by simp [ha])).1, (r₁.isFree a).2 (hmem a (by simp [ha])).2⟩)
    ((freeChain_congr fun a ha => hother₁ a fun h => hdisj h (by simp [ha])).2 hc₂) hlast
  refine ⟨d₂, ?_, r₁.trans r₂, ⟨?_, ?_, ?_, ?_⟩⟩
  have hne : d.slots.isEmpty = false :=
    List.isEmpty_eq_false.2 (List.ne_nil_of_length_pos (Nat.zero_lt_of_lt (window_of_get? he).2.2))
  · rw [cleanelem, if_neg (by simp [hne]), if_neg (by simp [hdead]), hli.1, hli.2]
    simp only [h₁, h₂, Option.bind_eq_bind, Option.some_bind]; rfl
  · exact hfl.nodup.sublist ((List.sublist_cons_self i l₂).append_left l₁)
  · rw [hfirst₂, hfirst₁]; cases l₁ <;> rfl
  · rw [hlast₂, List.getLastD_eq_getLast?, List.getLastD_eq_getLast?, List.getLastD_eq_getLast?,
      List.getLast?_append]
    cases l₂.getLast? <;> rfl
  · rw [freeChain_append]
    exact ⟨(freeChain_congr fun a ha => hother₂ a fun h => hdisj ha (by simp [h])).2 hch₁, hch₂⟩

theorem get?_nil {d : PresDeque α} (h : d.slots = []) (j : Int) : d.get? j = none := by
  rw [get?_eq, h]; split_ifs <;> rfl

theorem get?_front {d : PresDeque α} {y : PresDequeElement α} {rest : List (PresDequeElement α)}
    (hw : d.maxId + 1 = d.minId + d.slots.length) (hd : d.slots = y :: rest) :
    d.get? d.minId = some y := by
  rw [hd] at hw; rw [get?_eq, if_pos (by simp at hw; omega), hd]; simp

theorem get?_back {d : PresDeque α} {y : PresDequeElement α}
    (hw : d.maxId + 1 = d.minId + d.slots.length) (hd : d.slots.getLast? = some y) :
    d.get? d.maxId = some y := by
  have hlen : 0 < d.slots.length := List.length_pos.2 fun h => by simp [h] at hd
  rw [get?_eq, if_pos (by omega), ← hd, List.getLast?_eq_getElem?]
  congr 1; omega

theorem fromId_popFront {d : PresDeque α} {y : PresDequeElement α}
    {rest : List (PresDequeElement α)} (hd : d.slots = y :: rest) (j : Int) :
    { d with slots := rest, minId := d.minId + 1 }.fromId j =
      if j = d.minId then none else d.fromId j := by
  unfold fromId; rw [get?_popFront hd]; split_ifs <;> rfl

theorem fromId_popBack {d : PresDeque α} (hw : d.maxId + 1 = d.minId + d.slots.length) (j : Int) :
    { d with slots := d.slots.dropLast, maxId := d.maxId - 1 }.fromId j =
      if j = d.maxId then none else d.fromId j := by
  unfold fromId; rw [get?_popBack hw]; split_ifs <;> rfl

private theorem mem_append_cons_iff {l₁ l₂ : List Int} {i j : Int} (h : (l₁ ++ i :: l₂).Nodup) :
    j ∈ l₁ ++ l₂ ↔ j ≠ i ∧ j ∈ l₁ ++ i :: l₂ := by
  obtain ⟨-, h₂, hdisj⟩ := List.nodup_append.1 h
  have hi₂ : i ∉ l₂ := (List.nodup_cons.1 h₂).1
  constructor
  · intro hj
    refine ⟨?_, by simp at hj ⊢; tauto⟩
    rintro rfl
    rcases List.mem_append.1 hj with hj | hj
    · exact hdisj hj (List.mem_cons_self _ _)
    · exact hi₂ hj
  · rintro ⟨hne, hj⟩; simp [hne] at hj ⊢; exact hj

/-- Popping the front slot of a state whose free list and `Size_` already leave it out. -/
theorem core_popFront {d : PresDeque α} {fl : List Int} {y : PresDequeElement α}
    {rest : List (PresDequeElement α)} (hd : d.slots = y :: rest) (hpos : 0 < d.minId)
    (hw : d.maxId + 1 = d.minId + d.slots.length)
    (hlive : ∀ i e, d.get? i = some e → e.isAlive → e.id = i)
    (hsize : d.size = rest.countP (·.isAlive)) (hfree : ∀ j, j ∈ fl ↔ j ≠ d.minId ∧ d.IsFree j)
    (hl : Linked d fl) : Core { d with slots := rest, minId := d.minId + 1 } fl where
  minId_pos := by dsimp only; omega
  window := by rw [hd] at hw; simp at hw ⊢; omega
  live_id i e he := hlive i e (by rw [get?_popFront hd] at he; split_ifs at he; exact he)
  size_eq := hsize
  free_iff j := by
    rw [hfree]; unfold IsFree; rw [get?_popFront hd]; split_ifs with h <;> simp [h]
  linked := ⟨hl.nodup, hl.first, hl.last, (freeChain_congr fun a ha => by
    unfold links; rw [get?_popFront hd, if_neg ((hfree a).1 ha).1]).2 hl.chain⟩

/-- Popping the back slot of a state whose free list and `Size_` already leave it out. -/
theorem core_popBack {d : PresDeque α} {fl : List Int} (hpos : 0 < d.minId)
    (hw : d.maxId + 1 = d.minId + d.slots.length) (hne : d.slots ≠ [])
    (hlive : ∀ i e, d.get? i = some e → e.isAlive → e.id = i)
    (hsize : d.size = d.slots.dropLast.countP (·.isAlive))
    (hfree : ∀ j, j ∈ fl ↔ j ≠ d.maxId ∧ d.IsFree j)
    (hl : Linked d fl) : Core { d with slots := d.slots.dropLast, maxId := d.maxId - 1 } fl where
  minId_pos := hpos
  window := by
    have := List.length_pos.2 hne
    simp only [List.length_dropLast]; omega
  live_id i e he := hlive i e (by rw [get?_popBack hw] at he; split_ifs at he; exact he)
  size_eq := hsize
  free_iff j := by
    rw [hfree]; unfold IsFree; rw [get?_popBack hw]; split_ifs with h <;> simp [h]
  linked := ⟨hl.nodup, hl.first, hl.last, (freeChain_congr fun a ha => by
    unfold links; rw [get?_popBack hw, if_neg ((hfree a).1 ha).1]).2 hl.chain⟩

private theorem countP_dropLast {l : List (PresDequeElement α)} {y : PresDequeElement α}
    (hy : l.getLast? = some y) :
    l.countP (·.isAlive) = l.dropLast.countP (·.isAlive) + if y.isAlive then 1 else 0 := by
  conv_lhs => rw [← List.dropLast_append_getLast? y hy]
  simp [List.countP_append, List.countP_cons]

/-- The front loop of `erase`: started on a deque whose front slot is to go, whose other slots
are `Core` and hold an element at the back, it ends within one round per slot in a well-formed
deque with the elements of the other slots. -/
theorem popFront_spec : ∀ (fuel : Nat) (d : PresDeque α) (fl : List Int) (y : PresDequeElement α)
    (rest : List (PresDequeElement α)), d.slots = y :: rest → rest ≠ [] → rest.length < fuel →
    Core { d with slots := rest, minId := d.minId + 1 } fl →
    (∀ e, { d with slots := rest, minId := d.minId + 1 }.get? d.maxId = some e → e.isAlive) →
    ∃ d', popFront fuel d = some d' ∧ d'.Wf ∧
      d'.fromId = { d with slots := rest, minId := d.minId + 1 }.fromId ∧
      d'.slots.length ≤ rest.length
  | 0, _, _, _, _, _, _, hlen, _, _ => absurd hlen (Nat.not_lt_zero _)
  | fuel + 1, d, fl, y, rest, hd, hne, hlen, hc, hback => by
    set d₁ := { d with slots := rest, minId := d.minId + 1 } with hd₁
    obtain ⟨z, r, rfl⟩ := List.exists_cons_of_ne_nil hne
    simp only [popFront, hd, List.head?_cons, Option.bind_eq_bind, Option.some_bind]
    have hz : d₁.get? d₁.minId = some z := get?_front hc.window rfl
    by_cases halive : z.isAlive
    · refine ⟨d₁, by simp [cleanelem, halive], ⟨⟨fl, hc⟩, fun e he => ?_, hback⟩, rfl, le_rfl⟩
      rw [hz] at he; cases he; exact halive
    · have hfree : d₁.IsFree d₁.minId := ⟨z, hz, by simpa using halive⟩
      obtain ⟨l₁, l₂, rfl⟩ := List.append_of_mem ((hc.free_iff _).2 hfree)
      obtain ⟨d₂, hcl, hr, hl⟩ := cleanelem_free hc hz
      obtain ⟨z', r', hd₂⟩ : ∃ z' r', d₂.slots = z' :: r' := List.exists_cons_of_ne_nil fun h => by
        have := hr.length; rw [h] at this; simp at this
      have hw₂ : d₂.maxId + 1 = d₂.minId + d₂.slots.length := by
        rw [hr.minId, hr.maxId, hr.length]; exact hc.window
      have hz' : z'.isAlive = false := by
        obtain ⟨e, he, hdead⟩ := (hr.isFree _).2 hfree
        rw [← hr.minId, get?_front hw₂ hd₂] at he; cases he; exact hdead
      -- the back holds an element, so the free front slot is not the last one
      have hr' : r' ≠ [] := by
        rintro rfl
        have hmax : d₂.minId = d.maxId := by
          simp only [hd₂, List.length_singleton] at hw₂; rw [← hr.maxId]; omega
        simpa [hz'] using hr.live_of hback z' (hmax ▸ get?_front hw₂ hd₂)
      obtain ⟨d', hpop, hwf, hfrom, hlen'⟩ := popFront_spec fuel d₂ (l₁ ++ l₂) z' r' hd₂ hr'
        (by have := hr.length; simp only [hd₂, List.length_cons] at this hlen; omega)
        (core_popFront hd₂ (hr.minId ▸ hc.minId_pos) hw₂
          (fun i e he hl => hc.live_id i e ((hr.get?_live).1 ⟨he, hl⟩).1 hl)
          (by rw [hr.size, hc.size_eq, ← hr.count, hd₂, List.countP_cons]; simp [hz'])
          (fun j => by rw [mem_append_cons_iff hc.linked.nodup, hc.free_iff, hr.minId, hr.isFree])
          hl)
        (fun e he => by
          rw [get?_popFront hd₂] at he
          split_ifs at he
          exact hr.live_of hback e (hr.maxId ▸ he))
      refine ⟨d', by simpa [hcl] using hpop, hwf, funext fun j => ?_, ?_⟩
      swap
      · have := hr.length; simp only [hd₂, List.length_cons] at this ⊢; omega
      rw [hfrom, fromId_popFront hd₂, hr.fromId, hr.minId]
      split_ifs with hj
      · subst hj; simp [fromId, hz, halive]
      · rfl

/-- The back loop of `erase`, as `popFront_spec` at the other end. -/
theorem popBack_spec : ∀ (fuel : Nat) (d : PresDeque α) (fl : List Int), d.slots.dropLast ≠ [] →
    d.slots.length ≤ fuel → Core { d with slots := d.slots.dropLast, maxId := d.maxId - 1 } fl →
    (∀ e, { d with slots := d.slots.dropLast, maxId := d.maxId - 1 }.get? d.minId = some e →
      e.isAlive) →
    ∃ d', popBack fuel d = some d' ∧ d'.Wf ∧
      d'.fromId = { d with slots := d.slots.dropLast, maxId := d.maxId - 1 }.fromId ∧
      d'.slots.length ≤ d.slots.dropLast.length
  | 0, d, _, hne, hlen, _, _ => by
    have : 0 < d.slots.dropLast.length := List.length_pos.2 hne
    simp only [List.length_dropLast] at this; omega
  | fuel + 1, d, fl, hne, hlen, hc, hfront => by
    set d₁ := { d with slots := d.slots.dropLast, maxId := d.maxId - 1 } with hd₁
    have hne' : d.slots.isEmpty = false := List.isEmpty_eq_false.2 fun h => hne (by simp [h])
    obtain ⟨z, hlast⟩ := Option.ne_none_iff_exists'.1 (mt List.getLast?_eq_none_iff.1 hne)
    simp only [popBack, hne', Bool.false_eq_true, if_false, hlast, Option.bind_eq_bind,
      Option.some_bind]
    have hz : d₁.get? d₁.maxId = some z := get?_back hc.window hlast
    by_cases halive : z.isAlive
    · refine ⟨d₁, by simp [cleanelem, halive, hd₁, hne], ⟨⟨fl, hc⟩, hfront, fun e he => ?_⟩, rfl,
        le_rfl⟩
      rw [hz] at he; cases he; exact halive
    · have hfree : d₁.IsFree d₁.maxId := ⟨z, hz, by simpa using halive⟩
      obtain ⟨l₁, l₂, rfl⟩ := List.append_of_mem ((hc.free_iff _).2 hfree)
      obtain ⟨d₂, hcl, hr, hl⟩ := cleanelem_free hc hz
      have hw₂ : d₂.maxId + 1 = d₂.minId + d₂.slots.length := by
        rw [hr.minId, hr.maxId, hr.length]; exact hc.window
      have hne₂ : d₂.slots ≠ [] := fun h => hne (by
        have := hr.length; rw [h] at this; exact List.length_eq_zero.1 this.symm)
      obtain ⟨z', hz'⟩ := Option.ne_none_iff_exists'.1 (mt List.getLast?_eq_none_iff.1 hne₂)
      have hdead : z'.isAlive = false := by
        obtain ⟨e, he, hdead⟩ := (hr.isFree _).2 hfree
        rw [← hr.maxId, get?_back hw₂ hz'] at he; cases he; exact hdead
      -- the front holds an element, so the free back slot is not the first one
      have hne₂' : d₂.slots.dropLast ≠ [] := by
        intro h
        have h1 : d₂.slots.length = 1 := by
          have := List.length_pos.2 hne₂
          have := congrArg List.length h
          simp only [List.length_dropLast, List.length_nil] at this; omega
        have hmin : d₂.maxId = d.minId := by rw [← hr.minId]; omega
        simpa [hdead] using hr.live_of hfront z' (hmin ▸ get?_back hw₂ hz')
      obtain ⟨d', hpop, hwf, hfrom, hlen'⟩ := popBack_spec fuel d₂ (l₁ ++ l₂) hne₂'
        (by
          have h₁ : d₂.slots.length = d.slots.length - 1 := hr.length.trans (List.length_dropLast _)
          have := List.length_pos.2 hne₂
          omega)
        (core_popBack (hr.minId ▸ hc.minId_pos) hw₂ hne₂
          (fun i e he hl => hc.live_id i e ((hr.get?_live).1 ⟨he, hl⟩).1 hl)
          (by rw [hr.size, hc.size_eq, ← hr.count, countP_dropLast hz', hdead]; rfl)
          (fun j => by rw [mem_append_cons_iff hc.linked.nodup, hc.free_iff, hr.maxId, hr.isFree])
          hl)
        (fun e he => by
          rw [get?_popBack hw₂] at he
          split_ifs at he
          exact hr.live_of hfront e (hr.minId ▸ he))
      refine ⟨d', by simpa [hcl] using hpop, hwf, funext fun j => ?_, ?_⟩
      swap
      · have := hr.length; simp only [List.length_dropLast] at this hlen' ⊢; omega
      rw [hfrom, fromId_popBack hw₂, hr.fromId, hr.maxId]
      split_ifs with hj
      · subst hj; simp [fromId, hz, halive]
      · rfl

theorem not_isFree_of_live {d : PresDeque α} {i : Int} {e : PresDequeElement α}
    (h : d.get? i = some e) (he : e.isAlive) : ¬ d.IsFree i := by
  rintro ⟨f, hf, hfd⟩; rw [h] at hf; cases hf; simp [he] at hfd

theorem Core.free_iff_ne {d : PresDeque α} {fl : List Int} (hc : Core d fl) {i : Int}
    {e : PresDequeElement α} (h : d.get? i = some e) (he : e.isAlive) (j : Int) :
    j ∈ fl ↔ j ≠ i ∧ d.IsFree j := by
  rw [hc.free_iff]
  exact ⟨fun hj => ⟨by rintro rfl; exact not_isFree_of_live h he hj, hj⟩, And.right⟩

/-- The end of `erase` in the middle of the deque: once the free list has the freed slot as its
last entry, the deque is well formed and has lost exactly that element. -/
theorem erase_middle_wf {d d' : PresDeque α} {fl : List Int} {p : Nat} {e : PresDequeElement α}
    (hw : d.Wf) (hc : Core d fl) (hget : d.get? e.id = some e) (he : e.isAlive)
    (hp : (e.id - d.minId).toNat = p) (hmin : e.id ≠ d.minId) (hmax : e.id ≠ d.maxId)
    (hr : Relinked { d with slots := d.slots.set p { e with id := 0, prevId := d.lastSlot },
                            size := d.size - 1 } d')
    (hl : Linked d' (fl ++ [e.id])) :
    d'.Wf ∧ (∀ j, d'.fromId j = if j = e.id then none else d.fromId j) ∧
      d'.slots.length ≤ d.slots.length := by
  set e' : PresDequeElement α := { e with id := 0, prevId := d.lastSlot }
  have he' : e'.isAlive = false := by
    have := hc.linked.last ▸ getLastD_nonneg fun a ha => hc.pos_of_mem ha
    simp [e', PresDequeElement.isAlive]; omega
  have hget₁ : ∀ j, { d with slots := d.slots.set p e', size := d.size - 1 }.get? j =
      if j = e.id then some e' else d.get? j := fun j => hp ▸ get?_set hget e' j
  have hlive : ∀ j f, d'.get? j = some f → f.isAlive → j ≠ e.id ∧ d.get? j = some f :=
    fun j f hf hfl => by
      have := ((hr.get?_live).1 ⟨hf, hfl⟩).1
      rw [hget₁] at this
      split_ifs at this with hj
      · cases this; simp [he'] at hfl
      · exact ⟨hj, this⟩
  have hend : ∀ j, j ≠ e.id → (∀ f, d.get? j = some f → f.isAlive) →
      ∀ f, d'.get? j = some f → f.isAlive := fun j hj h =>
    hr.live_of fun f hf => h f (by rwa [hget₁, if_neg hj] at hf)
  have hk : p < d.slots.length := hp ▸ (window_of_get? hget).2.2
  refine ⟨⟨⟨fl ++ [e.id], ⟨hr.minId ▸ hc.minId_pos, ?_, fun j f hf hfl => ?_, ?_, fun j => ?_, hl⟩⟩,
    hr.minId ▸ hend _ (Ne.symm hmin) hw.front_live,
    hr.maxId ▸ hend _ (Ne.symm hmax) hw.back_live⟩, fun j => ?_,
    (hr.length.trans (List.length_set ..)).le⟩
  · rw [hr.minId, hr.maxId, hr.length, List.length_set]; exact hc.window
  · obtain ⟨-, hf'⟩ := hlive j f hf hfl; exact hc.live_id j f hf' hfl
  · have hslot : d.slots[p] = e := by
      have := getElem?_of_get? hget; rw [hp] at this
      exact (List.getElem?_eq_some_iff.1 this).2
    rw [hr.size, hr.count, List.countP_set _ _ _ _ hk, hslot, he, he', hc.size_eq]; rfl
  · rw [hr.isFree, List.mem_append, hc.free_iff, List.mem_singleton]
    unfold IsFree; rw [hget₁]
    by_cases hj : j = e.id
    · simp [hj, he']
    · simp [hj]
  · rw [hr.fromId]
    unfold fromId; rw [hget₁]
    split_ifs <;> simp [he']

/-- `erase` through a pointer to an element, with another slot left, keeps the deque well formed
and removes exactly that element: every other ID keeps its element. -/
theorem erase_refines {d : PresDeque α} (hw : d.Wf) (h2 : 2 ≤ d.slots.length) {p : Nat}
    {e : PresDequeElement α} (hp : d.slots[p]? = some e) (he : e.isAlive) :
    ∃ d', d.erase p = some d' ∧ d'.Wf ∧
      (∀ j, d'.fromId j = if j = e.id then none else d.fromId j) ∧
      d'.slots.length ≤ d.slots.length := by
  obtain ⟨⟨fl, hc⟩, hfront, hback⟩ := hw
  have hpl : p < d.slots.length := (List.getElem?_eq_some_iff.1 hp).1
  have hget := get?_of_getElem? hc.window hp
  have hid : e.id = d.minId + p := hc.live_id _ _ hget he
  rw [← hid] at hget
  have hp' : (e.id - d.minId).toNat = p := by omega
  simp only [erase, hp, Option.bind_eq_bind, Option.some_bind]
  rw [if_neg (by omega)]
  split_ifs with hmin hmax hlast
  · -- the first slot: the front loop
    obtain ⟨rest, hs⟩ : ∃ rest, d.slots = e :: rest := by
      cases hs : d.slots with
      | nil => simp [hs] at hpl
      | cons y rest =>
        rw [hs, show p = 0 by omega] at hp
        obtain rfl : y = e := by simpa using hp
        exact ⟨rest, rfl⟩
    set d₀ := { d with size := d.size - 1 }
    obtain ⟨d', hpop, hwf, hfrom, hlen⟩ := popFront_spec d.slots.length d₀ fl e rest hs
      (by rintro rfl; simp [hs] at h2) (by simp [hs])
      (core_popFront hs hc.minId_pos hc.window hc.live_id
        (by show d.size - 1 = _; rw [hc.size_eq, hs, List.countP_cons, if_pos he]; rfl)
        (hc.free_iff_ne (hmin ▸ hget) he) (hc.linked.congr rfl rfl rfl rfl rfl))
      (fun f hf => by
        rw [get?_popFront (d := d₀) hs] at hf; split_ifs at hf; exact hback f hf)
    refine ⟨d', hpop, hwf, fun j => ?_, by rw [hs]; simp only [List.length_cons]; omega⟩
    rw [hfrom, fromId_popFront (d := d₀) hs, hmin]; rfl
  · -- the last slot: the back loop
    have hlast : d.slots.getLast? = some e := by
      rw [List.getLast?_eq_getElem?, show d.slots.length - 1 = p by have := hc.window; omega]
      exact hp
    have hne : d.slots ≠ [] := by rintro h; simp [h] at hpl
    set d₀ := { d with size := d.size - 1 }
    obtain ⟨d', hpop, hwf, hfrom, hlen⟩ := popBack_spec d.slots.length d₀ fl
      (show d.slots.dropLast ≠ [] from fun h => by
        have := congrArg List.length h; simp only [List.length_dropLast, List.length_nil] at this
        omega)
      le_rfl
      (core_popBack hc.minId_pos hc.window hne hc.live_id
        (by show d.size - 1 = _; rw [hc.size_eq, countP_dropLast hlast, if_pos he]; rfl)
        (hc.free_iff_ne (hmax ▸ hget) he) (hc.linked.congr rfl rfl rfl rfl rfl))
      (fun f hf => by
        rw [get?_popBack (d := d₀) hc.window] at hf; split_ifs at hf; exact hfront f hf)
    refine ⟨d', hpop, hwf, fun j => ?_, hlen.trans (List.dropLast_sublist _).length_le⟩
    rw [hfrom, fromId_popBack (d := d₀) hc.window, hmax]; rfl
  · -- a middle slot, with an empty free list
    have hfl : fl = [] := by
      by_contra hne
      have := hc.pos_of_mem (List.getLast_mem hne)
      rw [hc.linked.last, List.getLastD_eq_getLast?, List.getLast?_eq_getLast _ hne] at hlast
      simp at hlast; omega
    subst hfl
    refine ⟨_, rfl, erase_middle_wf ⟨⟨[], hc⟩, hfront, hback⟩ hc hget he hp' hmin hmax
      (Relinked.refl_of_eq rfl rfl rfl rfl) ⟨List.nodup_singleton _, rfl, rfl, ?_, trivial⟩⟩
    rw [← hp']; simp [links, get?_set hget, hlast]
  · -- a middle slot, appended to the free list
    have hfl : fl ≠ [] := by rintro rfl; exact hlast hc.linked.last
    have hlast' : d.lastSlot = fl.getLast hfl := by
      rw [hc.linked.last, List.getLastD_eq_getLast?, List.getLast?_eq_getLast _ hfl]; rfl
    obtain ⟨ec, hec, hecd⟩ := (hc.free_iff _).1 (hlast' ▸ List.getLast_mem hfl)
    have hce : d.lastSlot ≠ e.id := by rintro h; exact not_isFree_of_live hget he (h ▸ ⟨ec, hec, hecd⟩)
    set d₁ : PresDeque α := ⟨d.slots.set p { e with id := 0, prevId := d.lastSlot }, d.firstSlot,
      d.lastSlot, d.minId, d.maxId, d.size - 1⟩ with hd₁
    have hget₁ : ∀ j, d₁.get? j = if j = e.id then some { e with id := 0, prevId := d.lastSlot }
        else d.get? j := fun j => by rw [hd₁, ← hp']; exact get?_set hget _ j
    have hec₁ : d₁.get? d.lastSlot = some ec := by rw [hget₁, if_neg hce, hec]
    rw [setId_eq hec₁]
    have hlinks : ∀ a, a ≠ e.id → d₁.links a = d.links a := fun a ha => by
      unfold links; rw [hget₁, if_neg ha]
    obtain ⟨init, hinit⟩ : ∃ init, fl = init ++ [d.lastSlot] :=
      ⟨fl.dropLast, hlast' ▸ (List.dropLast_append_getLast hfl).symm⟩
    have hnd := hc.linked.nodup
    have hchain := hc.linked.chain
    rw [hinit] at hnd hchain
    refine ⟨_, rfl, erase_middle_wf ⟨⟨fl, hc⟩, hfront, hback⟩ hc hget he hp' hmin hmax
      ((relinked_set hec₁ hecd (by simpa [PresDequeElement.isAlive] using hecd)).trans
        (Relinked.refl_of_eq rfl rfl rfl rfl)) ⟨?_, ?_, ?_, ?_⟩⟩
    · refine List.nodup_append.2 ⟨hc.linked.nodup, List.nodup_singleton _, fun a ha hae => ?_⟩
      rw [List.mem_singleton] at hae; subst hae
      exact not_isFree_of_live hget he ((hc.free_iff _).1 ha)
    · show d.firstSlot = _
      rw [hc.linked.first]; cases fl; exact absurd rfl hfl; rfl
    · simp [List.getLastD_eq_getLast?]
    · rw [freeChain_append]
      refine ⟨hinit ▸ freeChain_snoc_next ((freeChain_congr fun a ha => hlinks a fun h => ?_).2 hchain)
        (fun a ha => ?_) ?_, ?_⟩
      · exact not_isFree_of_live hget he (h ▸ (hc.free_iff a).1 (hinit ▸ ha))
      · rw [links_set hec₁, if_neg fun (h : a = d.lastSlot) =>
          (List.nodup_append.1 hnd).2.2 ha (h ▸ List.mem_singleton_self _)]
      · rw [links_set hec₁, if_pos rfl]; simp [links, hec₁]
      · refine ⟨?_, trivial⟩
        rw [links_set hec₁, if_neg (Ne.symm hce)]
        unfold links; rw [hget₁, if_pos rfl]; simp [hc.linked.last]

/-- `insert` keeps the deque well formed and stores the element under an ID that held no
element; every other ID keeps its element. -/
theorem insert_refines {d : PresDeque α} (hw : d.Wf) (v : α) :
    ∃ d' id, d.insert v = some (d', id) ∧ d'.Wf ∧ d.fromId id = none ∧
      (∀ j, d'.fromId j = if j = id then some v else d.fromId j) ∧
      d'.slots.length ≤ max d.slots.length d'.size := by
  obtain ⟨⟨fl, hc⟩, hfront, hback⟩ := hw
  cases fl with
  | nil =>
    -- no free slot: `emplace_back`
    have h0 : d.firstSlot = 0 := hc.linked.first
    simp only [insert, getSlot, h0, if_true, Option.bind_eq_bind, Option.some_bind]
    set x : PresDequeElement α := ⟨v, d.maxId + 1, -1⟩
    have hx : x.isAlive := by simp [x, PresDequeElement.isAlive]
    rw [show (d.slots ++ [(⟨v, 0, -1⟩ : PresDequeElement α)]).set d.slots.length x =
      d.slots ++ [x] by simp]
    have hget : ∀ j, (PresDeque.mk (d.slots ++ [x]) 0 d.lastSlot d.minId (d.maxId + 1)
        (d.size + 1)).get? j = if j = d.maxId + 1 then some x else d.get? j :=
      get?_emplaceBack hc.window x
    have hfresh : d.get? (d.maxId + 1) = none := by rw [get?_eq, if_neg (by omega)]
    refine ⟨_, _, rfl, ⟨⟨[], ⟨hc.minId_pos, ?_, fun j f hf hfl => ?_, ?_, fun j => ?_,
      ⟨List.nodup_nil, rfl, hc.linked.last, trivial⟩⟩⟩, fun f hf => ?_, fun f hf => ?_⟩,
      by simp [fromId, hfresh], fun j => ?_, Nat.le_trans ?_ (Nat.le_max_right _ _)⟩
    · have := hc.window; simp only [List.length_append, List.length_singleton]; push_cast; omega
    · rw [hget] at hf
      split_ifs at hf with hj
      · cases hf; exact hj.symm
      · exact hc.live_id j f hf hfl
    · show d.size + 1 = _
      rw [List.countP_append, hc.size_eq]; simp [hx]
    · simp only [List.not_mem_nil, false_iff]
      rintro ⟨f, hf, hfd⟩
      rw [hget] at hf
      split_ifs at hf
      · cases hf; simp [hx] at hfd
      · exact List.not_mem_nil j ((hc.free_iff j).2 ⟨f, hf, hfd⟩)
    · rw [hget] at hf
      split_ifs at hf
      · cases hf; exact hx
      · exact hfront f hf
    · rw [hget, if_pos rfl] at hf; cases hf; exact hx
    · unfold fromId; rw [hget]; split_ifs <;> simp [hx]
    · -- with no free slot, every slot holds an element
      have hall : ∀ f ∈ d.slots, f.isAlive := fun f hf => by
        obtain ⟨i, hi⟩ := (mem_slots_iff hc.window f).1 hf
        by_contra hfd
        exact List.not_mem_nil i ((hc.free_iff i).2 ⟨f, hi, by simpa using hfd⟩)
      show (d.slots ++ [x]).length ≤ d.size + 1
      rw [hc.size_eq, List.countP_eq_length.2 hall]; simp
  | cons a rest =>
    -- the first free slot `a`
    have ha : 0 < a := hc.pos_of_mem (List.mem_cons_self _ _)
    have hfirst : d.firstSlot = a := hc.linked.first
    obtain ⟨na, hna, hnad⟩ := (hc.free_iff a).1 (List.mem_cons_self _ _)
    obtain ⟨hla, hchain⟩ := hc.linked.chain
    simp only [links, hna, Option.map_some', Option.some.injEq, Prod.mk.injEq] at hla
    obtain ⟨h₁, h₂, hk⟩ := window_of_get? hna
    simp only [insert, getSlot, hfirst, ha.ne', if_false, iteratorFromId, h₁, h₂, and_self,
      if_true, getElem?_of_get? hna, Option.bind_eq_bind, Option.some_bind, hla.2]
    have hrest : ∀ b ∈ rest, 0 < b ∧ d.IsFree b := fun b hb =>
      ⟨hc.pos_of_mem (List.mem_cons_of_mem _ hb), (hc.free_iff b).1 (List.mem_cons_of_mem _ hb)⟩
    have hnd := List.nodup_cons.1 hc.linked.nodup
    obtain ⟨d₂, h₂, r₂, hfirst₂, hlast₂, hch₂, hother₂⟩ :=
      unlink_next (d := ⟨d.slots, rest.headD 0, d.lastSlot, d.minId, d.maxId, d.size + 1⟩)
        (i := a) (p := 0) le_rfl hnd.2 hrest
        ((freeChain_congr fun b _ => links_mk d _ _ _ b).2 hchain)
        (hc.linked.last.trans (List.getLastD_cons _ _ _))
    rw [h₂]
    simp only [Option.some_bind]
    rw [show (a - d.minId).toNat = (a - d₂.minId).toNat by rw [r₂.minId]]
    set x : PresDequeElement α := ⟨v, a, -1⟩
    have hx : x.isAlive := by simp [x, PresDequeElement.isAlive]
    obtain ⟨na₂, hna₂, hna₂d⟩ := (r₂.isFree a).2 ⟨na, hna, hnad⟩
    have hget : ∀ j, (PresDeque.mk (d₂.slots.set (a - d₂.minId).toNat x) d₂.firstSlot d₂.lastSlot
        d₂.minId d₂.maxId d₂.size).get? j = if j = a then some x else d₂.get? j :=
      get?_set hna₂ x
    have hend : ∀ j, (∀ f, d.get? j = some f → f.isAlive) → ∀ f, (PresDeque.mk
        (d₂.slots.set (a - d₂.minId).toNat x) d₂.firstSlot d₂.lastSlot d₂.minId d₂.maxId
        d₂.size).get? j = some f → f.isAlive := fun j h f hf => by
      rw [hget] at hf
      split_ifs at hf
      · cases hf; exact hx
      · exact r₂.live_of h f hf
    have hk₂ := (window_of_get? hna₂).2.2
    refine ⟨_, _, rfl, ⟨⟨rest, ⟨r₂.minId ▸ hc.minId_pos, ?_, fun j f hf hfl => ?_, ?_,
      fun j => ?_, ⟨hnd.2, hfirst₂, hlast₂, ?_⟩⟩⟩, r₂.minId ▸ hend _ hfront,
      r₂.maxId ▸ hend _ hback⟩, by simp [fromId, hna, hnad], fun j => ?_,
      Nat.le_trans (by rw [List.length_set, r₂.length]) (Nat.le_max_left _ _)⟩
    · rw [List.length_set, r₂.minId, r₂.maxId, r₂.length]; exact hc.window
    · rw [hget] at hf
      split_ifs at hf with hj
      · cases hf; exact hj.symm
      · exact hc.live_id j f ((r₂.get?_live).1 ⟨hf, hfl⟩).1 hfl
    · have hslot : d₂.slots[(a - d₂.minId).toNat] = na₂ :=
        (List.getElem?_eq_some_iff.1 (getElem?_of_get? hna₂)).2
      show d₂.size = _
      rw [List.countP_set _ _ _ _ hk₂, hslot, hna₂d, hx, r₂.size, r₂.count]
      show d.size + 1 = _
      rw [hc.size_eq]; rfl
    · unfold IsFree; rw [hget]
      by_cases hj : j = a
      · subst hj; simp [hx, hnd.1]
      · simp only [hj, if_false]
        rw [← IsFree, r₂.isFree]
        exact (List.mem_cons.trans (or_iff_right hj)).symm.trans (hc.free_iff j)
    · exact (freeChain_congr fun b hb => by
        unfold links; rw [hget, if_neg (by rintro rfl; exact hnd.1 hb)]).2 hch₂
    · unfold fromId; rw [hget]
      split_ifs with hj
      · simp [hx]
      · rw [← fromId, r₂.fromId]; rfl

/-- The `ID_` of a free slot is never its own ID: it is the next free slot, or 0. -/
theorem Core.id_ne_of_free {d : PresDeque α} {fl : List Int} (hc : Core d fl) {i : Int}
    {e : PresDequeElement α} (he : d.get? i = some e) (hd : e.isAlive = false) : e.id ≠ i := by
  have hi := (hc.free_iff i).2 ⟨e, he, hd⟩
  obtain ⟨l₁, l₂, hfl⟩ := List.append_of_mem hi
  have hch := hc.linked.chain
  have hnd := hc.linked.nodup
  rw [hfl, freeChain_append] at hch
  rw [hfl] at hnd
  obtain ⟨-, hli, -⟩ := hch
  simp only [links, he, Option.map_some', Option.some.injEq, Prod.mk.injEq] at hli
  rw [hli.2]
  cases l₂ with
  | nil => have := hc.pos_of_mem hi; simp only [List.headD_nil]; omega
  | cons b r =>
    rintro rfl
    simp [List.nodup_append] at hnd

/-- `erase` through a pointer to a free slot fails its assertion. -/
theorem erase_of_free {d : PresDeque α} (hw : d.Wf) {p : Nat} {e : PresDequeElement α}
    (hp : d.slots[p]? = some e) (hd : e.isAlive = false) : d.erase p = none := by
  obtain ⟨⟨fl, hc⟩, -, -⟩ := hw
  have hne := hc.id_ne_of_free (get?_of_getElem? hc.window hp) hd
  simp only [erase, hp, Option.bind_eq_bind, Option.some_bind]
  rw [if_pos (by omega)]

theorem wf_empty : (empty : PresDeque α).Wf :=
  ⟨⟨[], ⟨Int.zero_lt_one, rfl, fun i e he => by simp [get?_nil (d := empty) rfl] at he, rfl,
    fun i => by simp [IsFree, get?_nil (d := empty) rfl], ⟨List.nodup_nil, rfl, rfl, trivial⟩⟩⟩,
    fun e he => by simp [get?_nil (d := empty) rfl] at he,
    fun e he => by simp [get?_nil (d := empty) rfl] at he⟩

/-- Erasing from a deque of one slot pops it and reads `front()` of the emptied deque, which is
undefined. -/
theorem erase_of_length_one {d : PresDeque α} (h1 : d.slots.length = 1) (p : Nat) :
    d.erase p = none := by
  obtain ⟨x, hx⟩ := List.length_eq_one.1 h1
  rcases p with _ | p
  · simp only [erase, hx, List.getElem?_cons_zero, Option.bind_eq_bind, Option.some_bind]
    split_ifs <;> first | rfl | omega
  · simp [erase, hx]

theorem erase_wf {d d' : PresDeque α} (hw : d.Wf) {p : Nat} (h : d.erase p = some d') :
    d'.Wf ∧ d'.slots.length ≤ d.slots.length := by
  cases hp : d.slots[p]? with
  | none => simp [erase, hp] at h
  | some e =>
    by_cases he : e.isAlive
    · rcases Nat.lt_or_ge d.slots.length 2 with h1 | h2
      · have := (List.getElem?_eq_some_iff.1 hp).1
        rw [erase_of_length_one (by omega)] at h; cases h
      · obtain ⟨d'', h', hw', -, hlen⟩ := erase_refines hw h2 hp he
        rw [h'] at h; cases h; exact ⟨hw', hlen⟩
    · rw [erase_of_free hw hp (by simpa using he)] at h; cases h

/-- Every operation keeps a deque well formed, and grows it only up to `size()`. -/
theorem step_wf {d d' : PresDeque α} (hw : d.Wf) {o : Op α} (h : d.step o = some d') :
    d'.Wf ∧ d'.slots.length ≤ max d.slots.length d'.size := by
  cases o with
  | insert v =>
    obtain ⟨d'', id, hi, hw', -, -, hlen⟩ := insert_refines hw v
    simp only [step, hi, Option.map_some'] at h; cases h; exact ⟨hw', hlen⟩
  | erase p =>
    obtain ⟨hw', hlen⟩ := erase_wf hw h
    exact ⟨hw', Nat.le_trans hlen (Nat.le_max_left _ _)⟩
  | clear => cases h; exact ⟨wf_empty, Nat.zero_le _⟩

/-- Every run keeps a deque well formed. -/
theorem run_wf : ∀ (ops : List (Op α)) {d d' : PresDeque α}, d.Wf → d.run ops = some d' → d'.Wf
  | [], _, _, hw, h => by cases h; exact hw
  | _ :: os, _, _, hw, h => by
    obtain ⟨d₁, h₁, h⟩ := Option.bind_eq_some.1 h
    exact run_wf os (step_wf hw h₁).1 h

/-- The most elements alive at once along a run: `size()` before each operation and at the end. -/
def peakSize (d : PresDeque α) : List (Op α) → Nat
  | [] => d.size
  | o :: os => max d.size (((d.step o).map (peakSize · os)).getD 0)

theorem size_le_peakSize (d : PresDeque α) (ops : List (Op α)) : d.size ≤ d.peakSize ops := by
  cases ops <;> simp [peakSize]

/-- Along a run, the deque holds at most as many slots as it held at the start or as elements
were alive at once. -/
theorem length_le_peakSize : ∀ (ops : List (Op α)) {d d' : PresDeque α}, d.Wf →
    d.run ops = some d' → d'.slots.length ≤ max d.slots.length (d.peakSize ops)
  | [], _, _, _, h => by cases h; exact Nat.le_max_left _ _
  | o :: os, d, _, hw, h => by
    obtain ⟨d₁, h₁, h⟩ := Option.bind_eq_some.1 h
    obtain ⟨hw₁, hlen₁⟩ := step_wf hw h₁
    have := length_le_peakSize os hw₁ h
    have := size_le_peakSize d₁ os
    simp only [peakSize, h₁, Option.map_some', Option.getD_some]
    omega

/-- A range-for over slots whose last one holds an element never runs past the end, and visits
the elements in order. -/
theorem iterate_eq : ∀ (l : List (PresDequeElement α)), (∀ e ∈ l.getLast?, e.isAlive) →
    iterate l = some (l.filterMap PresDequeElement.value?)
  | [], _ => rfl
  | e :: rest, h => by
    have hrest : ∀ f ∈ rest.getLast?, f.isAlive := fun f hf => h f (by
      rw [List.getLast?_cons]; simp only [Option.mem_def] at hf ⊢; rw [hf]; rfl)
    by_cases he : e.isAlive
    · simp [iterate, he, iterate_eq rest hrest]
    · cases rest with
      | nil => exact absurd (h e rfl) he
      | cons f r =>
        rw [iterate, if_neg he, if_neg (by simp), iterate_eq _ hrest]
        simp [he]

private theorem filterMap_eq_range {β γ : Type} (f : β → Option γ) :
    ∀ l : List β, l.filterMap f = (List.range l.length).filterMap fun k => l[k]?.bind f
  | [] => rfl
  | a :: t => by
    rw [List.length_cons, List.range_succ_eq_map, List.filterMap_cons, List.filterMap_cons,
      List.filterMap_map, filterMap_eq_range f t]
    simp only [List.getElem?_cons_zero, Option.some_bind, Function.comp_def,
      List.getElem?_cons_succ]

/-! ## Reachable deques

What holds of every deque that a run of `insert`, `erase` and `clear` reaches from the empty
one. The instances use `holed`: three elements inserted and the middle one erased, which leaves
a free slot in the middle. -/

/-- Three inserts, then an erase through a pointer to the middle element. -/
def holeRun : List (Op Nat) := [.insert 10, .insert 20, .insert 30, .erase 1]

/-- The deque `holeRun` reaches: slot 2 is free and alone on the free list. -/
def holed : PresDeque Nat := ⟨[⟨10, 1, -1⟩, ⟨20, 0, 0⟩, ⟨30, 3, -1⟩], 2, 2, 1, 3, 2⟩

section Reachable

variable {ops : List (Op α)} {d : PresDeque α}

/-- Every reachable deque is well formed. -/
theorem wf_of_run (h : empty.run ops = some d) : d.Wf := run_wf ops wf_empty h

theorem holed_wf : holed.Wf := wf_of_run (show empty.run holeRun = some holed by decide)

/-- `insert` into a reachable deque stores the element under an ID that held no element, every
other ID keeps its element, and the deque grows beyond its slots only up to `size()`. -/
theorem insert_of_run (h : empty.run ops = some d) (v : α) :
    ∃ d' id, d.insert v = some (d', id) ∧ d.fromId id = none ∧
      (∀ j, d'.fromId j = if j = id then some v else d.fromId j) ∧
      d'.slots.length ≤ max d.slots.length d'.size := by
  obtain ⟨d', id, hi, -, hf, hj, hlen⟩ := insert_refines (run_wf ops wf_empty h) v
  exact ⟨d', id, hi, hf, hj, hlen⟩

theorem holed_insert :
    ∃ d' id, holed.insert 40 = some (d', id) ∧ holed.fromId id = none ∧
      (∀ j, d'.fromId j = if j = id then some 40 else holed.fromId j) ∧
      d'.slots.length ≤ max holed.slots.length d'.size :=
  insert_of_run (show empty.run holeRun = some holed by decide) 40

/-- The free slot is reused, and the deque does not grow. -/
example : holed.insert 40 = some (⟨[⟨10, 1, -1⟩, ⟨40, 2, -1⟩, ⟨30, 3, -1⟩], 0, 0, 1, 3, 3⟩, 2) := by
  decide

/-- `erase` through a pointer to an element of a reachable deque that holds another element
removes exactly that element: every other ID keeps its element. -/
theorem erase_of_run (h : empty.run ops = some d) (h2 : 2 ≤ d.size) {p : Nat}
    {e : PresDequeElement α} (hp : d.slots[p]? = some e) (he : e.isAlive) :
    ∃ d', d.erase p = some d' ∧ ∀ j, d'.fromId j = if j = e.id then none else d.fromId j := by
  have hw := run_wf ops wf_empty h
  obtain ⟨fl, hc⟩ := hw.core
  obtain ⟨d', he', -, hj, -⟩ :=
    erase_refines hw (h2.trans (hc.size_eq ▸ List.countP_le_length _)) hp he
  exact ⟨d', he', hj⟩

theorem holed_erase_front :
    ∃ d', holed.erase 0 = some d' ∧ ∀ j, d'.fromId j = if j = 1 then none else holed.fromId j :=
  erase_of_run (show empty.run holeRun = some holed by decide) (by decide)
    (show holed.slots[0]? = some ⟨10, 1, -1⟩ by rfl) rfl

/-- Erasing the first element pops its slot and the free slot behind it. -/
example : holed.erase 0 = some ⟨[⟨30, 3, -1⟩], 0, 0, 3, 3, 1⟩ := by decide

/-- `erase` through a pointer to a free slot of a reachable deque, such as a pointer to an
element erased before, fails its assertion. -/
theorem erase_free_of_run (h : empty.run ops = some d) {p : Nat} {e : PresDequeElement α}
    (hp : d.slots[p]? = some e) (hd : e.isAlive = false) : d.erase p = none :=
  erase_of_free (run_wf ops wf_empty h) hp hd

theorem holed_erase_twice : holed.erase 1 = none :=
  erase_free_of_run (show empty.run holeRun = some holed by decide)
    (show holed.slots[1]? = some ⟨20, 0, 0⟩ by rfl) rfl

/-- A range-for over a reachable deque never runs past the end: it visits `size()` elements,
those stored under the deque's IDs, in the order of the IDs. -/
theorem iterate_of_run (h : empty.run ops = some d) :
    ∃ l, iterate d.slots = some l ∧ l.length = d.size ∧
      l = (List.range d.slots.length).filterMap fun k : Nat => d.fromId (d.minId + k) := by
  obtain ⟨⟨fl, hc⟩, -, hback⟩ := run_wf ops wf_empty h
  refine ⟨_, iterate_eq _ fun e he => hback e (get?_back hc.window he), ?_, ?_⟩
  · rw [List.length_filterMap_eq_countP, hc.size_eq]
    congr 1; funext e; simp only [PresDequeElement.value?_eq]; split <;> simp [*]
  · rw [filterMap_eq_range]
    refine List.filterMap_congr fun k hk => ?_
    obtain ⟨e, he⟩ : ∃ e, d.slots[k]? = some e :=
      Option.ne_none_iff_exists'.1 (by rw [Ne, List.getElem?_eq_none_iff]; simpa using hk)
    rw [he, fromId, get?_of_getElem? hc.window he]

theorem holed_iterate :
    ∃ l, iterate holed.slots = some l ∧ l.length = holed.size ∧
      l = (List.range holed.slots.length).filterMap fun k : Nat => holed.fromId (holed.minId + k) :=
  iterate_of_run (show empty.run holeRun = some holed by decide)

/-- A reachable deque never holds more slots than the most elements alive at once along its
run. -/
theorem length_le_peak_of_run (h : empty.run ops = some d) :
    d.slots.length ≤ empty.peakSize ops := by
  have := length_le_peakSize ops wf_empty h
  simpa [empty] using this

theorem holed_length_le_peak : holed.slots.length ≤ empty.peakSize holeRun :=
  length_le_peak_of_run (show empty.run holeRun = some holed by decide)

end Reachable

end PresDeque

end Ladybirds
