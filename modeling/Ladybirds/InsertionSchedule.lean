import Mathlib.Data.List.Forall2
import Mathlib.Data.List.Perm.Basic
import Mathlib.Data.Int.Order.Basic

/-! # Insertion schedules

`opt::InsertionSchedule` keeps the jobs of a DMA controller in a list; `TryInsertion` tries a new
job in front of each job still running at its arrival, and `PerformInsertion` pushes the jobs
behind it back. `Time` is computed in `Int`; the runs below stay far from overflow.
-/

namespace Ladybirds

namespace InsertionSchedule

/-- `InsertionSchedule::Job`. -/
structure Job where
  arrival : Int
  deadline : Int
  schedStart : Int
  schedEnd : Int
  deriving DecidableEq, Repr

/-- `std::numeric_limits<Time>::max()`. -/
def infinity : Int := 9223372036854775807

/-- The inner loop of `TryInsertion`: the jobs from the candidate on follow one another from `t`,
each as early as its arrival allows. The slack summed onto `total`, or `none` once a job misses
its deadline. -/
def followSlack : Int → Int → List Job → Option Int
  | _, total, [] => some total
  | t, total, j :: js =>
    let jdur := j.schedEnd - j.schedStart
    let t := max (t + jdur) (j.arrival + jdur)
    let jslack := j.deadline - t
    if jslack < 0 then none else followSlack t (total + jslack) js

/-- `better`: more total slack wins, unless the slack of the new job so far is negative, in which
case more slack of the new job wins. -/
def better (maxTotal maxInsert total insertslack : Int) : Bool :=
  if maxInsert < 0 ∧ insertslack < maxInsert then false
  else if maxInsert < 0 ∧ maxInsert < insertslack then true
  else decide (maxTotal < total)

/-- The outer loop of `TryInsertion` over the candidates, carrying `tstart`, `Tbestsched`,
`maxtotalslack` and `maxinsertslack`: the final `Tbestsched`. -/
def scan (arrival deadline duration : Int) : Int → Int → Int → Int → List Job → Int
  | _, best, _, _, [] => best
  | tstart, best, maxTotal, maxInsert, cur :: rest =>
    let tsched := max (tstart + duration) (arrival + duration)
    let insertslack := deadline - tsched
    if 0 < maxInsert ∧ insertslack < 0 then best else
    let nextdur := cur.schedEnd - cur.schedStart
    let tstart' := max (tstart + nextdur) (cur.arrival + nextdur)
    match followSlack tsched insertslack (cur :: rest) with
    | none => scan arrival deadline duration tstart' best maxTotal maxInsert rest
    | some total =>
      if better maxTotal maxInsert total insertslack then
        scan arrival deadline duration tstart' tsched total insertslack rest
      else scan arrival deadline duration tstart' best maxTotal maxInsert rest

/-- The first `tstart` of `TryInsertion`: the end of the job before the first candidate `i`. -/
def firstStart (jobs : List Job) (i : Nat) : Int :=
  if i = 0 then 0 else (jobs[i - 1]?.map Job.schedEnd).getD 0

/-- `TryInsertion`; `none` where `assert(Tbestsched != infinity)` fails. -/
def tryInsertion (jobs : List Job) (arrival deadline duration : Int) : Option Job :=
  let i := jobs.findIdx fun j => decide (arrival < j.schedEnd)
  if i = jobs.length then some ⟨arrival, deadline, arrival, arrival + duration⟩ else
  let best := scan arrival deadline duration (firstStart jobs i) infinity (-1) (-infinity)
    (jobs.drop i)
  if best = infinity then none
  else some ⟨arrival, max deadline (best + duration), best, best + duration⟩

/-- The loop of `PerformInsertion`: the jobs behind the new one that start no later than `t`, the
new job's end, are moved to start at `t`. -/
def ripple (t : Int) : List Job → List Job
  | [] => []
  | j :: js =>
    if t < j.schedStart then j :: js
    else { j with schedEnd := j.schedEnd + (t - j.schedStart), schedStart := t } :: ripple t js

/-- `PerformInsertion`. -/
def performInsertion (jobs : List Job) (job : Job) : List Job :=
  let i := jobs.findIdx fun j => decide (job.schedStart < j.schedEnd)
  jobs.take i ++ job :: ripple job.schedEnd (jobs.drop i)

/-- `TryInsertion(arrival, deadline, duration)`, each followed by `PerformInsertion` of its
result; `none` where an assertion fails. -/
def insertRun : List Job → List (Int × Int × Int) → Option (List Job)
  | jobs, [] => some jobs
  | jobs, (arrival, deadline, duration) :: reqs => do
    let job ← tryInsertion jobs arrival deadline duration
    insertRun (performInsertion jobs job) reqs

/-- The search returns the initial `Tbestsched` or a placement that ends no earlier than the
new job could. -/
theorem scan_eq_or_le {arrival deadline duration : Int} :
    ∀ (rest : List Job) (tstart best maxTotal maxInsert : Int),
      scan arrival deadline duration tstart best maxTotal maxInsert rest = best ∨
        arrival + duration ≤ scan arrival deadline duration tstart best maxTotal maxInsert rest
  | [], _, _, _, _ => .inl rfl
  | cur :: rest, tstart, best, maxTotal, maxInsert => by
    simp only [scan]
    split
    · exact .inl rfl
    · split
      · exact scan_eq_or_le rest _ _ _ _
      · split
        · exact (scan_eq_or_le rest _ _ _ _).elim (fun h => .inr (h ▸ le_max_right _ _)) .inr
        · exact scan_eq_or_le rest _ _ _ _

/-- A job `TryInsertion` returns has the requested arrival and duration, starts no earlier than
its arrival and has a deadline no earlier than the requested one. -/
theorem tryInsertion_spec {jobs : List Job} {arrival deadline duration : Int} {job : Job}
    (hdur : 0 ≤ duration) (h : tryInsertion jobs arrival deadline duration = some job) :
    job.arrival = arrival ∧ deadline ≤ job.deadline ∧
      job.schedEnd - job.schedStart = duration ∧ arrival ≤ job.schedStart := by
  simp only [tryInsertion] at h
  split_ifs at h with hi hinf
  · obtain rfl := Option.some.inj h
    exact ⟨rfl, le_rfl, by dsimp only; omega, le_rfl⟩
  · obtain rfl := Option.some.inj h
    refine ⟨rfl, le_max_left _ _, by dsimp only; omega, ?_⟩
    rcases scan_eq_or_le (jobs.drop _) _ _ _ _ with h | h
    · exact absurd h hinf
    · dsimp only; omega

/-- A job pushed back by `PerformInsertion` keeps its arrival, deadline and duration and starts
no earlier. -/
def Moved (j j' : Job) : Prop :=
  j'.arrival = j.arrival ∧ j'.deadline = j.deadline ∧
    j'.schedEnd - j'.schedStart = j.schedEnd - j.schedStart ∧ j.schedStart ≤ j'.schedStart

theorem moved_refl (j : Job) : Moved j j := ⟨rfl, rfl, rfl, le_rfl⟩

theorem forall₂_moved_ripple (t : Int) : ∀ js : List Job, List.Forall₂ Moved js (ripple t js)
  | [] => .nil
  | j :: js => by
    unfold ripple
    split
    · exact List.forall₂_same.2 fun j _ => moved_refl j
    · exact .cons ⟨rfl, rfl, by dsimp only; omega, by dsimp only; omega⟩ (forall₂_moved_ripple t js)

/-- `PerformInsertion` inserts the job into the list and pushes some of the jobs behind it. -/
theorem performInsertion_moved (jobs : List Job) (job : Job) :
    ∃ i, List.Forall₂ Moved (jobs.take i ++ job :: jobs.drop i) (performInsertion jobs job) :=
  ⟨_, List.rel_append (List.forall₂_same.2 fun j _ => moved_refl j)
    (.cons (moved_refl job) (forall₂_moved_ripple _ _))⟩

/-- What a job carries from its request: its arrival and its duration. -/
def Job.request (j : Job) : Int × Int := (j.arrival, j.schedEnd - j.schedStart)

theorem Moved.request_eq {j j' : Job} (h : Moved j j') : j'.request = j.request := by
  simp only [Job.request, h.1, h.2.2.1]

theorem Moved.started {j j' : Job} (h : Moved j j') (hj : j.arrival ≤ j.schedStart) :
    j'.arrival ≤ j'.schedStart :=
  h.1 ▸ hj.trans h.2.2.2

theorem forall₂_moved_request {l l' : List Job} (h : List.Forall₂ Moved l l') :
    l'.map Job.request = l.map Job.request := by
  induction h with
  | nil => rfl
  | cons hj _ ih => rw [List.map_cons, List.map_cons, hj.request_eq, ih]

theorem forall₂_moved_started {l l' : List Job} (h : List.Forall₂ Moved l l')
    (hl : ∀ j ∈ l, j.arrival ≤ j.schedStart) : ∀ j ∈ l', j.arrival ≤ j.schedStart := by
  induction h with
  | nil => exact fun _ h => absurd h (List.not_mem_nil _)
  | cons hj _ ih =>
    rintro j (_ | ⟨_, hmem⟩)
    · exact hj.started (hl _ (List.mem_cons_self _ _))
    · exact ih (fun j hj => hl j (List.mem_cons_of_mem _ hj)) j hmem

/-- Over every run of insertions with non-negative durations, the jobs are those requested, each
with the requested arrival and duration, and none starts before its arrival. -/
theorem insertRun_keeps_durations :
    ∀ {reqs : List (Int × Int × Int)} {jobs jobs' : List Job},
      (∀ r ∈ reqs, 0 ≤ r.2.2) → (∀ j ∈ jobs, j.arrival ≤ j.schedStart) →
      insertRun jobs reqs = some jobs' →
      (jobs'.map Job.request).Perm (jobs.map Job.request ++ reqs.map fun r => (r.1, r.2.2)) ∧
        ∀ j ∈ jobs', j.arrival ≤ j.schedStart
  | [], jobs, jobs', _, hjobs, h => by
    obtain rfl := Option.some.inj h
    simpa using hjobs
  | (arrival, deadline, duration) :: reqs, jobs, jobs', hreqs, hjobs, h => by
    simp only [insertRun, Option.bind_eq_bind, Option.bind_eq_some] at h
    obtain ⟨job, hjob, hrun⟩ := h
    obtain ⟨harr, -, hdur, hstart⟩ :=
      tryInsertion_spec (hreqs _ (List.mem_cons_self _ _)) hjob
    obtain ⟨i, hmoved⟩ := performInsertion_moved jobs job
    have hins : ∀ j ∈ jobs.take i ++ job :: jobs.drop i, j.arrival ≤ j.schedStart := by
      intro j hj
      rcases List.mem_append.1 hj with hj | hj | ⟨_, hj⟩
      · exact hjobs j (List.mem_of_mem_take hj)
      · exact harr ▸ hstart
      · exact hjobs j (List.mem_of_mem_drop hj)
    obtain ⟨hperm, hrest⟩ := insertRun_keeps_durations
      (fun r hr => hreqs r (List.mem_cons_of_mem _ hr)) (forall₂_moved_started hmoved hins) hrun
    have hreq : job.request = (arrival, duration) := by simp [Job.request, harr, hdur]
    refine ⟨hperm.trans ?_, hrest⟩
    rw [forall₂_moved_request hmoved]
    calc (jobs.take i ++ job :: jobs.drop i).map Job.request ++ reqs.map (fun r => (r.1, r.2.2))
        = (jobs.take i).map Job.request ++ (arrival, duration) ::
            ((jobs.drop i).map Job.request ++ reqs.map fun r => (r.1, r.2.2)) := by
          simp [hreq]
      List.Perm _ ((arrival, duration) :: ((jobs.take i).map Job.request ++
            ((jobs.drop i).map Job.request ++ reqs.map fun r => (r.1, r.2.2)))) := List.perm_middle
      _ = (arrival, duration) :: (jobs.map Job.request ++ reqs.map fun r => (r.1, r.2.2)) := by
          rw [← List.append_assoc, ← List.map_append, List.take_append_drop]
      List.Perm _ (jobs.map Job.request ++ ((arrival, deadline, duration) :: reqs).map
            fun r => (r.1, r.2.2)) := List.perm_middle.symm

/-- Three runs from the empty schedule. A job of 10 time units placed at 0, then a job of one
unit arriving at 0 with deadline 100: every placement in front of the first job delays it past
its deadline and none behind it is tried, so the assertion fails. A job of 10 units with deadline
5: it is returned without a search and keeps deadline 5. Jobs at 2 and 3 of one unit each, then
one of two units arriving at 0: `PerformInsertion` pushes both to start at 4. -/
theorem insertionSchedule_violations :
    insertRun [] [(0, 10, 10), (0, 100, 1)] = none ∧
    insertRun [] [(0, 5, 10)] = some [⟨0, 5, 0, 10⟩] ∧
    insertRun [] [(2, 100, 1), (3, 100, 1), (0, 100, 2)] =
      some [⟨0, 100, 2, 4⟩, ⟨2, 100, 4, 5⟩, ⟨3, 100, 4, 5⟩] := by
  decide

end InsertionSchedule

end Ladybirds
