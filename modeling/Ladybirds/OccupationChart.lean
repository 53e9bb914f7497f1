import Mathlib

/-! # Occupation charts

`OccupationChart<T>` records the occupation of a resource over time as a map from each time at
which the level changes to the level from then on. Iterators into the map are positions in the
list of its entries, or the time of the entry they point at where the map changes under them.
Every failed assertion and every step before `begin()` is `none`.
-/

namespace Ladybirds

/-- What `OccupationChart<T>` uses of its level type: the value `T()`, the compound assignments
`+=` and `-=` with the value each returns for the comparison with the capacity, and the value
`+` returns in `Available`. -/
class OccupationLevel (T : Type) where
  zero : T
  addAssign : T → T → T × Int
  subAssign : T → T → T × Int
  add : T → T → Int

/-- `OccupationChart<long>`: levels are amounts. -/
instance : OccupationLevel Int where
  zero := 0
  addAssign v o := (v + o, v + o)
  subAssign v o := (v - o, v - o)
  add v o := v + o

/-- `SingleOccupation<T>`: the occupant, as the index of its node, or none. -/
structure SingleOccupation where
  occupant : Option Nat
  deriving DecidableEq, Repr

instance : OccupationLevel SingleOccupation where
  zero := ⟨none⟩
  addAssign v o := if v.occupant.isSome then (v, 2) else (o, 1)
  subAssign v o := if v.occupant ≠ o.occupant then (v, 1) else (⟨none⟩, 0)
  add v _ := if v.occupant.isSome then 2 else 1

/-- `std::numeric_limits<long>::max()`. -/
def infinite : Int := 2 ^ 63 - 1

structure OccupationChart (T : Type) where
  capacity : Int
  entries : List (Int × T)
  deriving DecidableEq, Repr

namespace OccupationChart

open OccupationLevel

variable {T : Type}

/-- The constructor `OccupationChart(capacity)`, and the chart `Clear()` leaves: level `T()` from
time 0 on. -/
def init [OccupationLevel T] (capacity : Int) : OccupationChart T := ⟨capacity, [(0, zero)]⟩

def clear [OccupationLevel T] (c : OccupationChart T) : OccupationChart T := init c.capacity

/-- `Entries_.lower_bound(t)`: the position of the first entry at `t` or later. -/
def lowerBound (es : List (Int × T)) (t : Int) : Nat := es.findIdx (fun e => t ≤ e.1)

/-- `Entries_.upper_bound(t)`: the position of the first entry after `t`. -/
def upperBound (es : List (Int × T)) (t : Int) : Nat := es.findIdx (fun e => t < e.1)

/-- `std::prev(it)->second` for the iterator at position `i`; undefined at `begin()`. -/
def prevValue (es : List (Int × T)) (i : Nat) : Option T :=
  if i = 0 then none else (es[i - 1]?).map Prod.snd

/-- `Entries_.emplace_hint(it, t, v)`: inserts `(t, v)` in time order unless `t` is a key already;
the hint only guides the search. -/
def emplace (t : Int) (v : T) : List (Int × T) → List (Int × T)
  | [] => [(t, v)]
  | e :: es => if t < e.1 then (t, v) :: e :: es else if t = e.1 then e :: es else e :: emplace t v es

/-- `if(it->second == std::prev(it)->second) Entries_.erase(it);` for the iterator at position
`i`: an entry repeating the level before it is dropped. -/
def eraseIfRepeated [DecidableEq T] (es : List (Int × T)) (i : Nat) : Option (List (Int × T)) :=
  match prevValue es i, es[i]? with
  | some p, some e => some (if e.2 = p then es.eraseIdx i else es)
  | _, _ => none

/-- The position of the entry at time `t`. -/
def positionOf (es : List (Int × T)) (t : Int) : Nat := es.findIdx (fun e => e.1 = t)

/-- The loops of `Occupy` and `Unoccupy` over `[itfrom, itto)`: `step` each level until `rejects`
holds of the value it returns; the `do ... while` then applies `undo` to that entry and to every
entry before it. The flag tells whether every entry passed. -/
def stepAll (step undo : T → T × Int) (rejects : Int → Bool) :
    List (Int × T) → Bool × List (Int × T)
  | [] => (true, [])
  | (t, v) :: es =>
    if rejects (step v).2 then (false, (t, (undo (step v).1).1) :: es)
    else
      let rest := stepAll step undo rejects es
      (rest.1, (t, if rest.1 then (step v).1 else (undo (step v).1).1) :: rest.2)

/-- The common body of `Occupy` and `Unoccupy` once `itto` is found. `fromRejects` tests the level
a new entry at `from'` would get, `rejects` each level of the loop. -/
def change [DecidableEq T] (c : OccupationChart T) (from' to' : Int) (itto : Nat) (step undo : T → T × Int)
    (fromRejects rejects : Int → Bool) : Option (Bool × OccupationChart T) := do
  let itfrom := lowerBound c.entries from'
  let some (kfrom, vfrom) := c.entries[itfrom]? | none
  let toval ← prevValue c.entries itto
  if kfrom ≠ from' ∧ fromRejects (step vfrom).2 then return (false, c)
  let (passed, seg) := stepAll step undo rejects ((c.entries.take itto).drop itfrom)
  let es := c.entries.take itfrom ++ seg ++ c.entries.drop itto
  if !passed then
    -- the last `it--` of the rollback steps before `itfrom`
    if itfrom = 0 then none
    return (false, { c with entries := es })
  let es ← if kfrom ≠ from' then pure (emplace from' (step vfrom).1 es)
    else eraseIfRepeated es itfrom
  let es ← if (c.entries[itto]?).map Prod.fst = some to' then eraseIfRepeated es (positionOf es to')
    else pure (emplace to' toval es)
  return (true, { c with entries := es })

/-- `Occupy(from, to, occ)`; note that `itto` is `upper_bound(from)`. -/
def occupy [OccupationLevel T] [DecidableEq T] (c : OccupationChart T) (from' to' : Int) (occ : T) : Option (Bool × OccupationChart T) :=
  if 0 ≤ from' ∧ from' < to' then
    c.change from' to' (upperBound c.entries from') (addAssign · occ) (subAssign · occ)
      (· > c.capacity) (· > c.capacity)
  else none

/-- `Unoccupy(from, to, occ)`; note that the level at a new entry at `from` is compared with
`Capacity_`. -/
def unoccupy [OccupationLevel T] [DecidableEq T] (c : OccupationChart T) (from' to' : Int) (occ : T) :
    Option (Bool × OccupationChart T) :=
  if 0 ≤ from' ∧ from' < to' then
    c.change from' to' (lowerBound c.entries to') (subAssign · occ) (addAssign · occ)
      (· < c.capacity) (· < 0)
  else none

/-- `operator[](t)`: the level of the last entry at or before `t`. -/
def level [OccupationLevel T] (c : OccupationChart T) (t : Int) : Option T :=
  if 0 ≤ t then prevValue c.entries (upperBound c.entries t) else none

/-- The loop of `Available` from the iterator on: without `to'` the first `find_if` looks for an
entry with room for `occ` and moves `from'` up to it; with `to'` the second `find_if` looks for an
entry at `to'` or later, or one without room, where the first `find_if` resumes (past it, as it has
no room). -/
def availableScan [OccupationLevel T] (capacity duration : Int) (occ : T) (from' : Int) :
    Option Int → List (Int × T) → Int
  | none, [] => infinite
  | some _, [] => from'
  | none, (t, v) :: es =>
    if add v occ ≤ capacity then
      let from' := max from' t
      let to' := if duration = infinite then infinite else from' + duration
      if to' ≤ t then from' else availableScan capacity duration occ from' (some to') es
    else availableScan capacity duration occ from' none es
  | some to', (t, v) :: es =>
    if to' ≤ t then from'
    else if add v occ > capacity then availableScan capacity duration occ from' none es
    else availableScan capacity duration occ from' (some to') es

/-- `Available(from, duration, occ)`: the first time from `from` on at which `occ` fits for
`duration`; it starts at `std::prev(upper_bound(from))`. -/
def available [OccupationLevel T] (c : OccupationChart T) (from' duration : Int) (occ : T) : Option Int :=
  let i := upperBound c.entries from'
  if i = 0 then none else some (availableScan c.capacity duration occ from' none (c.entries.drop (i - 1)))

/-- `AvailableSince(at, occ)` of `OccupationChart<long>`: from `lower_bound(at)` back, the last
entry whose level leaves no room for `occ`; the time of the entry after it, unless that entry is
past `at` or there is none. -/
def availableSince (c : OccupationChart Int) (at' occ : Int) : Int :=
  let lb := lowerBound c.entries at'
  let it := match (c.entries.take lb).reverse.findIdx? (fun e => e.2 > c.capacity - occ) with
    | some k => lb - k
    | none => 0
  match c.entries[it]? with
  | some e => if e.1 > at' then at' else e.1
  | none => at'

/-- `LeastAvail(from, to)` of `OccupationChart<long>`: the capacity less the highest level of the
entries from `std::prev(upper_bound(from))` up to `std::prev(lower_bound(to))`, that one
excluded; `max_element` of an empty range returns its end. -/
def leastAvail (c : OccupationChart Int) (from' to' : Int) : Option Int :=
  let ub := upperBound c.entries from'
  let lb := lowerBound c.entries to'
  if ub = 0 ∨ lb = 0 ∨ lb < ub then none
  else
    match (((c.entries.take (lb - 1)).drop (ub - 1)).map Prod.snd).max? with
    | some m => some (c.capacity - m)
    | none => (c.entries[lb - 1]?).map fun e => c.capacity - e.2

/-- A call of `Occupy` or `Unoccupy`. -/
inductive Call (T : Type) where
  | occupy (from' to' : Int) (occ : T)
  | unoccupy (from' to' : Int) (occ : T)
  deriving DecidableEq, Repr

def Call.apply [OccupationLevel T] [DecidableEq T] (c : OccupationChart T) :
    Call T → Option (Bool × OccupationChart T)
  | .occupy from' to' occ => c.occupy from' to' occ
  | .unoccupy from' to' occ => c.unoccupy from' to' occ

/-- The results of a sequence of calls, and the chart they leave. -/
def runCalls [OccupationLevel T] [DecidableEq T] (c : OccupationChart T) :
    List (Call T) → Option (List Bool × OccupationChart T)
  | [] => some ([], c)
  | k :: ks => do
    let (b, c) ← k.apply c
    let (bs, c) ← c.runCalls ks
    pure (b :: bs, c)

section Init

variable [OccupationLevel T]

theorem lowerBound_init (t : Int) : lowerBound [((0 : Int), (zero : T))] t = if t ≤ 0 then 0 else 1 := by
  simp [lowerBound, List.findIdx_cons]

theorem upperBound_init (t : Int) : upperBound [((0 : Int), (zero : T))] t = if t < 0 then 0 else 1 := by
  simp [upperBound, List.findIdx_cons]

theorem level_init {cap t : Int} (ht : 0 ≤ t) : (init cap : OccupationChart T).level t = some zero := by
  simp [level, init, upperBound_init, prevValue, ht, Int.not_lt.mpr ht]

theorem available_init {cap from' duration : Int} {occ : T} (hfrom : 0 ≤ from')
    (hroom : add zero occ ≤ cap) : (init cap : OccupationChart T).available from' duration occ = some from' := by
  simp [available, init, upperBound_init, Int.not_lt.mpr hfrom, availableScan, hroom,
    Int.max_eq_left hfrom]

/-- On the cleared chart the common body of `Occupy` and `Unoccupy` is undefined: past the last
entry `itfrom` is `end()`, and at time 0 it is `begin()`, before which the rollback or the merge
with the previous level steps. -/
theorem change_init [DecidableEq T] {cap from' to' : Int} {itto : Nat} {step undo : T → T × Int}
    {fromRejects rejects : Int → Bool} (hfrom : 0 ≤ from') (hitto : from' = 0 → itto = 1) :
    (init cap : OccupationChart T).change from' to' itto step undo fromRejects rejects = none := by
  rcases (show from' = 0 ∨ 0 < from' by omega) with rfl | hpos
  · obtain rfl := hitto rfl
    simp [change, init, lowerBound_init, prevValue, stepAll, eraseIfRepeated]
  · simp [change, init, lowerBound_init, Int.not_le.mpr hpos]

theorem occupy_init_eq_none [DecidableEq T] (cap from' to' : Int) (occ : T) :
    (init cap : OccupationChart T).occupy from' to' occ = none := by
  unfold occupy
  split_ifs with h
  · exact change_init h.1 fun h0 => by simp [init, upperBound_init, h0]
  · rfl

theorem unoccupy_init_eq_none [DecidableEq T] (cap from' to' : Int) (occ : T) :
    (init cap : OccupationChart T).unoccupy from' to' occ = none := by
  unfold unoccupy
  split_ifs with h
  · exact change_init h.1 fun h0 => by simp [init, lowerBound_init, Int.not_le.mpr (h0 ▸ h.2)]
  · rfl

/-- No sequence of calls on the cleared chart is defined: the first call already is not. -/
theorem runCalls_init_eq_none [DecidableEq T] (cap : Int) (k : Call T) (ks : List (Call T)) :
    (init cap : OccupationChart T).runCalls (k :: ks) = none := by
  cases k <;> simp [runCalls, Call.apply, occupy_init_eq_none, unoccupy_init_eq_none]

end Init

/-! ### Rejected requests

Where `undo` takes back `step`, as `-=` takes back `+=` on amounts, a rejected request leaves the
chart as it was.
-/

theorem stepAll_rejected {step undo : T → T × Int} {rejects : Int → Bool}
    (hundo : ∀ v, (undo (step v).1).1 = v) :
    ∀ {es : List (Int × T)}, (stepAll step undo rejects es).1 = false →
      (stepAll step undo rejects es).2 = es
  | [], h => by simp [stepAll] at h
  | (t, v) :: es, h => by
    unfold stepAll at h ⊢
    split_ifs at h ⊢ with hr
    · simp [hundo]
    · simp only at h
      simp [h, hundo, stepAll_rejected hundo h]

theorem change_rejected [DecidableEq T] {c c' : OccupationChart T} {from' to' : Int} {itto : Nat}
    {step undo : T → T × Int} {fromRejects rejects : Int → Bool}
    (hundo : ∀ v, (undo (step v).1).1 = v) (hle : lowerBound c.entries from' ≤ itto)
    (h : c.change from' to' itto step undo fromRejects rejects = some (false, c')) : c' = c := by
  simp only [change] at h
  split at h
  · rename_i kfrom vfrom _
    simp only [Option.bind_eq_bind, Option.bind_eq_some] at h
    obtain ⟨toval, -, h⟩ := h
    by_cases hc : kfrom ≠ from' ∧ fromRejects (step vfrom).2 = true
    · rw [if_pos hc] at h
      simp only [Option.pure_def, Option.some.injEq, Prod.mk.injEq] at h
      exact h.2.symm
    rw [if_neg hc] at h
    simp only [Option.pure_def, Option.some_bind] at h
    split at h
    · rename_i h2
      split at h
      · simp at h
      simp only [Option.some_bind, Option.some.injEq, Prod.mk.injEq] at h
      have hprefix : c.entries.take (lowerBound c.entries from') =
          (c.entries.take itto).take (lowerBound c.entries from') := by
        rw [List.take_take, Nat.min_eq_left hle]
      have h2' : (stepAll step undo rejects
          ((c.entries.take itto).drop (lowerBound c.entries from'))).1 = false := by simpa using h2
      rw [← h.2, stepAll_rejected hundo h2', hprefix, List.take_append_drop, List.take_append_drop]
    · split at h <;> split at h <;> simp [Option.bind_eq_some] at h
  · simp at h

theorem occupy_rejected {c c' : OccupationChart Int} {from' to' occ : Int}
    (h : c.occupy from' to' occ = some (false, c')) : c' = c := by
  unfold occupy at h
  split_ifs at h
  exact change_rejected (fun v => Int.add_sub_cancel v occ)
    (List.findIdx_le_findIdx fun _ _ hlt => by simp at hlt ⊢; omega) h

theorem unoccupy_rejected {c c' : OccupationChart Int} {from' to' occ : Int}
    (h : c.unoccupy from' to' occ = some (false, c')) : c' = c := by
  unfold unoccupy at h
  split_ifs at h with hft
  exact change_rejected (fun v => Int.sub_add_cancel v occ)
    (List.findIdx_le_findIdx fun _ _ hle => by simp at hle ⊢; omega) h

/-! ### The queries on reachable charts

Every chart the calls can leave is the cleared chart, where the queries answer as meant: the
level is `T()` from time 0 on and undefined before.
-/

/-- Room for `occ` at time `s`: the level there is defined and leaves room for it. -/
def Fits (c : OccupationChart Int) (occ s : Int) : Prop :=
  ∃ v, c.level s = some v ∧ v + occ ≤ c.capacity

/-- Room for `occ` over `duration` from `t` on, for ever where `duration` is `infinite`. -/
def FitsFor (c : OccupationChart Int) (duration occ t : Int) : Prop :=
  ∀ s, t ≤ s → (duration = infinite ∨ s < t + duration) → c.Fits occ s

/-- What `Available(from, duration, occ)` is meant to return: the least `t ≥ from` with room
for `duration`, or `infinite` if there is none. -/
def AvailableFrom (c : OccupationChart Int) (from' duration occ r : Int) : Prop :=
  IsLeast {t | from' ≤ t ∧ c.FitsFor duration occ t} r ∨
    (r = infinite ∧ ∀ t, from' ≤ t → ¬ c.FitsFor duration occ t)

theorem runCalls_init_eq_some [DecidableEq T] [OccupationLevel T] {cap : Int} {ks : List (Call T)}
    {bs : List Bool} {c : OccupationChart T} (h : (init cap : OccupationChart T).runCalls ks = some (bs, c)) :
    c = init cap := by
  cases ks with
  | nil => simp only [runCalls, Option.some.injEq, Prod.mk.injEq] at h; exact h.2.symm
  | cons k ks =>
    cases k <;> simp [runCalls, Call.apply, occupy_init_eq_none, unoccupy_init_eq_none] at h

theorem fits_init {cap occ s : Int} : (init cap : OccupationChart Int).Fits occ s ↔ 0 ≤ s ∧ occ ≤ cap := by
  by_cases hs : 0 ≤ s
  · simp only [Fits, level_init hs, Option.some.injEq, exists_eq_left', hs, true_and]
    simp [init, OccupationLevel.zero]
  · simp [Fits, level, hs]

theorem available_init_spec {cap from' duration occ : Int} (hfrom : 0 ≤ from') (hd : 0 < duration) :
    ∃ r, (init cap : OccupationChart Int).available from' duration occ = some r ∧
      (init cap).AvailableFrom from' duration occ r := by
  by_cases hocc : occ ≤ cap
  · refine ⟨from', available_init hfrom (by simpa [OccupationLevel.zero, OccupationLevel.add]),
      .inl ⟨⟨le_rfl, fun s hs _ => fits_init.2 ⟨by omega, hocc⟩⟩, fun t ht => ht.1⟩⟩
  · refine ⟨infinite, ?_, .inr ⟨rfl, fun t ht hfit => ?_⟩⟩
    · simp only [available, init, upperBound_init, if_neg (Int.not_lt.mpr hfrom)]
      simp [availableScan, OccupationLevel.zero, OccupationLevel.add, hocc]
    · exact hocc (fits_init.1 (hfit t le_rfl (.inr (by omega)))).2

theorem availableSince_init (cap at' occ : Int) :
    (init cap : OccupationChart Int).availableSince at' occ = if 0 < at' ∧ occ ≤ cap then 0 else at' := by
  by_cases hpos : 0 < at'
  · simp only [availableSince, init, lowerBound_init, if_neg (Int.not_le.mpr hpos)]
    by_cases hocc : occ ≤ cap
    · simp [OccupationLevel.zero, hpos, hocc, not_lt.2 hocc, not_lt.2 hpos.le]
    · simp [OccupationLevel.zero, hocc, not_le.1 hocc]
  · simp only [availableSince, init, lowerBound_init, if_pos (Int.not_lt.mp hpos), hpos, false_and,
      if_false]
    rcases (show at' = 0 ∨ at' < 0 by omega) with rfl | hneg
    · simp
    · simp [hneg]

theorem availableSince_init_spec (cap at' occ : Int) :
    IsLeast {t | t ≤ at' ∧ ∀ s, t ≤ s → s < at' → (init cap).Fits occ s}
      ((init cap).availableSince at' occ) := by
  rw [availableSince_init]
  split_ifs with h
  · exact ⟨⟨h.1.le, fun s hs _ => fits_init.2 ⟨hs, h.2⟩⟩,
      fun t ht => not_lt.1 fun hneg => absurd (fits_init.1 (ht.2 t le_rfl (by omega))).1 (by omega)⟩
  · refine ⟨⟨le_rfl, fun s h1 h2 => absurd h2 (by omega)⟩, fun t ht => not_lt.1 fun hlt => h ?_⟩
    have hfit := fits_init.1 (ht.2 t le_rfl hlt)
    exact ⟨by omega, hfit.2⟩

theorem leastAvail_init_spec {cap from' to' : Int} (hfrom : 0 ≤ from') (hlt : from' < to') :
    ∃ m, (init cap).leastAvail from' to' = some m ∧
      IsGreatest {v | ∃ t, from' ≤ t ∧ t < to' ∧ (init cap).level t = some v} (cap - m) := by
  refine ⟨cap, ?_, ?_⟩
  · simp only [leastAvail, init, upperBound_init, lowerBound_init, if_neg (Int.not_lt.mpr hfrom),
      if_neg (show ¬ to' ≤ 0 by omega)]
    simp [OccupationLevel.zero]
  · refine ⟨⟨from', le_rfl, hlt, by simp [level_init hfrom, OccupationLevel.zero]⟩, ?_⟩
    rintro v ⟨t, ht, -, hv⟩
    rw [level_init (hfrom.trans ht), Option.some.injEq] at hv
    simp [← hv, OccupationLevel.zero]

end OccupationChart

end Ladybirds
