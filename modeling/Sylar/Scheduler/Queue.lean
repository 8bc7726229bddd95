/-
# Sylar.Scheduler.Queue — the task queue (`sylar/scheduler.{h,cpp}`).

`m_fibers` is a list of `FiberAndThread`.  `scheduleNoLock` appends to it; the scan at the top of
`Scheduler::run` takes the first entry this thread may run, passing over entries pinned to another
thread and fibers that are in `EXEC`.  Both run under `m_mutex`, so each is one function.

`scan_took` and `scan_none` say what a scan did; its caller never looks at the loop again.
-/
import Sylar.Scheduler.Fiber

namespace Sylar.Scheduler

/-- `Scheduler::FiberAndThread`; a fiber is known by its position in the heap of fibers. -/
structure FiberAndThread where
  fiber : Option Nat
  cb : Option Callback
  thread : Int
  deriving DecidableEq, Repr

/-- A default-constructed entry, and the result of `reset`. -/
def FiberAndThread.empty : FiberAndThread := ⟨none, none, -1⟩

/-- `scheduleNoLock`, on an entry already built from its arguments; the answer is `need_tickle`. -/
def scheduleNoLock (m_fibers : List FiberAndThread) (ft : FiberAndThread) :
    List FiberAndThread × Bool :=
  (if ft.fiber.isSome || ft.cb.isSome then m_fibers ++ [ft] else m_fibers, m_fibers.isEmpty)

/-- The locked loop of `schedule(begin, end)`. -/
def scheduleRange (m_fibers : List FiberAndThread) :
    List FiberAndThread → List FiberAndThread × Bool
  | [] => (m_fibers, false)
  | ft :: rest =>
      let r := scheduleRange (scheduleNoLock m_fibers ft).1 rest
      (r.1, (scheduleNoLock m_fibers ft).2 || r.2)

/-- The scan of `run` on thread `tid`: the entry taken, the queue left behind, and `tickle_me`.
`none` is the assertion `it->fiber || it->cb`. -/
def scan (tid : Int) (state : Nat → State) :
    List FiberAndThread → Option (Option FiberAndThread × List FiberAndThread × Bool)
  | [] => some (none, [], false)
  | it :: rest =>
      if it.thread ≠ -1 ∧ it.thread ≠ tid then
        (scan tid state rest).map fun r => (r.1, it :: r.2.1, true)
      else if it.fiber.isNone && it.cb.isNone then none
      else if it.fiber.any fun f => state f = .exec then
        (scan tid state rest).map fun r => (r.1, it :: r.2.1, r.2.2)
      else some (some it, rest, false)

/-- The entry is not pinned elsewhere, and not a fiber in `EXEC`. -/
def Eligible (tid : Int) (state : Nat → State) (ft : FiberAndThread) : Prop :=
  (ft.thread = -1 ∨ ft.thread = tid) ∧ ∀ f, ft.fiber = some f → state f ≠ .exec

/-- No entry is empty: what `scheduleNoLock` keeps. -/
def NonEmpty (q : List FiberAndThread) : Prop :=
  ∀ ft ∈ q, ft.fiber.isSome = true ∨ ft.cb.isSome = true

theorem nonEmpty_schedule {q : List FiberAndThread} (h : NonEmpty q) (ft : FiberAndThread) :
    NonEmpty (scheduleNoLock q ft).1 := by
  simp only [scheduleNoLock]
  split
  · rename_i hft
    intro x hx
    rcases List.mem_append.mp hx with hx | hx
    · exact h x hx
    · rw [List.mem_singleton.mp hx]
      simpa using hft
  · exact h

variable {tid : Int} {state : Nat → State}

/-- The scan at its first entry: it is passed over, or it is eligible and taken. -/
theorem scan_cons {it : FiberAndThread} {q rest : List FiberAndThread} {o : Option FiberAndThread}
    {tk : Bool} (h : scan tid state (it :: q) = some (o, rest, tk)) :
    (¬ Eligible tid state it ∧ ∃ rest' tk', scan tid state q = some (o, rest', tk') ∧
        rest = it :: rest') ∨
      (Eligible tid state it ∧ o = some it ∧ rest = q) := by
  simp only [scan] at h
  split at h
  · rename_i hpin
    obtain ⟨⟨o', rest', tk'⟩, hq, heq⟩ := Option.map_eq_some_iff.mp h
    obtain ⟨rfl, rfl, -⟩ : o' = o ∧ it :: rest' = rest ∧ _ := by simpa using heq
    refine .inl ⟨fun he => ?_, rest', tk', hq, rfl⟩
    have := he.1
    omega
  · rename_i hpin
    split at h
    · cases h
    · split at h
      · rename_i hexec
        obtain ⟨⟨o', rest', tk'⟩, hq, heq⟩ := Option.map_eq_some_iff.mp h
        obtain ⟨rfl, rfl, -⟩ : o' = o ∧ it :: rest' = rest ∧ _ := by simpa using heq
        obtain ⟨f, hf, hst⟩ := (Option.any_eq_true ..).mp hexec
        exact .inl ⟨fun he => he.2 f hf (by simpa using hst), rest', tk', hq, rfl⟩
      · rename_i hexec
        obtain ⟨rfl, rfl, -⟩ : some it = o ∧ q = rest ∧ _ := by simpa using h
        refine .inr ⟨⟨by omega, fun f hf hst => hexec ?_⟩, rfl, rfl⟩
        simp [hf, hst]

/-- A scan that takes an entry takes the first eligible one, and leaves the others in order. -/
theorem scan_took {ft : FiberAndThread} : ∀ {q rest : List FiberAndThread} {tk : Bool},
    scan tid state q = some (some ft, rest, tk) → Eligible tid state ft ∧
      ∃ pre post, q = pre ++ ft :: post ∧ rest = pre ++ post ∧ ∀ x ∈ pre, ¬ Eligible tid state x
  | [], rest, tk, h => by simp [scan] at h
  | it :: q, rest, tk, h => by
      rcases scan_cons h with ⟨hit, rest', tk', hq, rfl⟩ | ⟨hit, ho, rfl⟩
      · obtain ⟨hft, pre, post, rfl, rfl, hpre⟩ := scan_took hq
        refine ⟨hft, it :: pre, post, rfl, rfl, fun x hx => ?_⟩
        rcases List.mem_cons.mp hx with rfl | hx
        · exact hit
        · exact hpre x hx
      · obtain rfl := Option.some.inj ho
        exact ⟨hit, [], rest, rfl, rfl, fun x hx => by cases hx⟩

/-- A scan that takes nothing leaves the queue alone, and nothing in it was eligible. -/
theorem scan_none : ∀ {q rest : List FiberAndThread} {tk : Bool},
    scan tid state q = some (none, rest, tk) → rest = q ∧ ∀ x ∈ q, ¬ Eligible tid state x
  | [], rest, tk, h => by
      obtain ⟨rfl, -⟩ : rest = [] ∧ _ := by simpa [scan, eq_comm] using h
      exact ⟨rfl, fun x hx => by cases hx⟩
  | it :: q, rest, tk, h => by
      rcases scan_cons h with ⟨hit, rest', tk', hq, rfl⟩ | ⟨hit, ho, rfl⟩
      · obtain ⟨rfl, hall⟩ := scan_none hq
        refine ⟨rfl, fun x hx => ?_⟩
        rcases List.mem_cons.mp hx with rfl | hx
        · exact hit
        · exact hall x hx
      · cases ho

/-- On a queue without empty entries the scan's assertion holds. -/
theorem scan_isSome : ∀ {q : List FiberAndThread}, NonEmpty q → (scan tid state q).isSome = true
  | [], _ => rfl
  | it :: q, h => by
      have hq : (scan tid state q).isSome = true :=
        scan_isSome fun ft hft => h ft (List.mem_cons_of_mem _ hft)
      have hit : ¬ (it.fiber.isNone && it.cb.isNone) = true := by
        intro hnone
        simp only [Bool.and_eq_true, Option.isNone_iff_eq_none] at hnone
        rcases h it List.mem_cons_self with h1 | h1
        · simp [hnone.1] at h1
        · simp [hnone.2] at h1
      simp only [scan, if_neg hit]
      split
      · simpa using hq
      · split
        · simpa using hq
        · rfl

/-- **What a scan does** on such a queue: it gets past a number of entries that are not eligible, to
one that it takes or to the end. -/
theorem scan_splits {q : List FiberAndThread} (h : NonEmpty q) :
    ∃ o pre post tk, scan tid state q = some (o, pre ++ post, tk) ∧ q = pre ++ o.toList ++ post ∧
      (o = none → post = []) ∧ ∀ x ∈ pre, ¬ Eligible tid state x := by
  have hsome : (scan tid state q).isSome = true := scan_isSome h
  obtain ⟨⟨o, rest, tk⟩, hscan⟩ := Option.isSome_iff_exists.mp hsome
  cases o with
  | none =>
      obtain ⟨rfl, hnone⟩ := scan_none hscan
      exact ⟨none, rest, [], tk, by simpa using hscan, by simp, fun _ => rfl, hnone⟩
  | some ft =>
      obtain ⟨-, pre, post, rfl, rfl, hpre⟩ := scan_took hscan
      exact ⟨some ft, pre, post, tk, hscan, by simp, nofun, hpre⟩

end Sylar.Scheduler
