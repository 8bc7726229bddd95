/-
# Sylar.Lib.Critical — sections under a lock, access by access.

In `Sylar.Lib.Linear` a section is one move.  Here it has a body: the thread takes the lock for reading or
for writing, goes through the body one access at a time, and lets go, and the other threads move in
between as far as the lock lets them.

If a body that is left alone does what its section does, and a body under the read lock writes nothing,
then nobody sees a difference: the histories are those of the runs in sections
(`Implements.exists_sections`).  A section happens when its thread lets go of the lock.
-/
import Sylar.Lib.Linear
import Sylar.Lib.Locking

namespace Sylar.Lib

/-! ## The lock -/

/-- Who holds a readers-writer lock. -/
structure RwLock where
  writer : Option ℕ
  readers : Finset ℕ
  deriving DecidableEq

namespace RwLock

def free : RwLock := ⟨none, ∅⟩

/-- `rdlock` and `wrlock` of the thread `t`; `none` while it has to wait. -/
def acquire (l : RwLock) (t : ℕ) : Mode → Option RwLock
  | .read => guarded (l.writer = none) { l with readers := insert t l.readers }
  | .write => guarded (l.writer = none ∧ l.readers = ∅) { l with writer := some t }

/-- `unlock`, of a thread that holds it. -/
def release (l : RwLock) (t : ℕ) : Option RwLock :=
  if l.writer = some t then some { l with writer := none }
  else guarded (t ∈ l.readers) { l with readers := l.readers.erase t }

def Holds (l : RwLock) (t : ℕ) : Mode → Prop
  | .read => t ∈ l.readers
  | .write => l.writer = some t

/-- A writer is alone. -/
def Exclusive (l : RwLock) : Prop := l.writer.isSome = true → l.readers = ∅

variable {l l' : RwLock} {t t' : ℕ} {m m' : Mode}

theorem acquire_writer (h : l.acquire t m = some l') : l.writer = none := by
  cases m with
  | read => exact (guarded_eq_some.mp h).1
  | write => exact (guarded_eq_some.mp h).1.1

theorem acquire_exclusive (h : l.acquire t m = some l') : l'.Exclusive := by
  cases m with
  | read =>
      obtain ⟨hw, rfl⟩ := guarded_eq_some.mp h
      intro hsome
      rw [show l.writer = none from hw] at hsome
      cases hsome
  | write =>
      obtain ⟨⟨-, hr⟩, rfl⟩ := guarded_eq_some.mp h
      exact fun _ => hr

theorem acquire_self (h : l.acquire t m = some l') : l'.Holds t m' ↔ m' = m := by
  cases m with
  | read =>
      obtain ⟨hw, rfl⟩ := guarded_eq_some.mp h
      cases m' with
      | read => simp [Holds]
      | write => simp [Holds, hw]
  | write =>
      obtain ⟨⟨-, hr⟩, rfl⟩ := guarded_eq_some.mp h
      cases m' with
      | read => simp [Holds, hr]
      | write => simp [Holds]

/-- Taking the lock does not take it from, or give it to, anybody else. -/
theorem acquire_other (h : l.acquire t m = some l') (ht : t' ≠ t) : l'.Holds t' m' ↔ l.Holds t' m' := by
  cases m with
  | read =>
      obtain ⟨-, rfl⟩ := guarded_eq_some.mp h
      cases m' with
      | read => simp [Holds, ht]
      | write => rfl
  | write =>
      obtain ⟨⟨hw, -⟩, rfl⟩ := guarded_eq_some.mp h
      cases m' with
      | read => rfl
      | write => simp [Holds, hw, ht.symm]

theorem release_exclusive (h : l.release t = some l') (hl : l.Exclusive) : l'.Exclusive := by
  unfold release at h
  split at h
  · obtain rfl := Option.some.inj h
    intro hsome
    cases hsome
  · obtain ⟨hin, rfl⟩ := guarded_eq_some.mp h
    intro hsome
    rw [hl hsome] at hin
    exact absurd hin (Finset.notMem_empty t)

theorem release_self (h : l.release t = some l') (hl : l.Exclusive) : ¬ l'.Holds t m' := by
  unfold release at h
  split at h
  · rename_i hw
    obtain rfl := Option.some.inj h
    have hr : l.readers = ∅ := hl (by rw [hw]; rfl)
    cases m' with
    | read => simp [Holds, hr]
    | write => simp [Holds]
  · rename_i hw
    obtain ⟨-, rfl⟩ := guarded_eq_some.mp h
    cases m' with
    | read => simp [Holds]
    | write => exact hw

theorem release_other (h : l.release t = some l') (ht : t' ≠ t) : l'.Holds t' m' ↔ l.Holds t' m' := by
  unfold release at h
  split at h
  · rename_i hw
    obtain rfl := Option.some.inj h
    cases m' with
    | read => rfl
    | write => simp [Holds, hw, ht.symm]
  · obtain ⟨-, rfl⟩ := guarded_eq_some.mp h
    cases m' with
    | read => simp [Holds, ht]
    | write => rfl

/-- A writer and anybody else do not hold the lock together. -/
theorem Exclusive.alone (h : l.Exclusive) (ht : l.Holds t .write) (ht' : l.Holds t' m') : t' = t := by
  have hw : l.writer = some t := ht
  cases m' with
  | write => exact Option.some.inj (ht'.symm.trans hw)
  | read =>
      have hin : t' ∈ l.readers := ht'
      rw [h (by rw [hw]; rfl)] at hin
      exact absurd hin (Finset.notMem_empty t')

end RwLock

/-! ## Bodies -/

variable {σ φ ℓ ο ρ : Type*}

/-- How the sections are gone through: under which lock, and by which accesses; the places of a body
are `ℓ`. -/
structure Bodies (σ φ ℓ ο ρ : Type*) where
  first : ο → φ
  mode : φ → Mode
  start : φ → ℓ
  access : ℓ → σ → Option (σ × ℓ)
  /-- The body is at its end, with an answer or with another section behind it. -/
  out : ℓ → Option (ρ ⊕ φ)

/-- What a thread is doing. -/
inductive Stage (φ ℓ ο ρ : Type*)
  | idle
  /-- It is about to take the lock, for the section `f`. -/
  | waiting (n : ℕ) (o : ο) (f : φ)
  /-- It has the lock. -/
  | inside (n : ℕ) (o : ο) (f : φ) (l : ℓ)
  | answered (n : ℕ) (r : ρ)
  deriving DecidableEq

/-- The same, where a section is one move. -/
def Stage.activity : Stage φ ℓ ο ρ → Activity φ ο ρ
  | .idle => .idle
  | .waiting n o f | .inside n o f _ => .within n o f
  | .answered n r => .answered n r

/-- The object and its lock, the threads, and what has been seen. -/
structure Fine (σ φ ℓ ο ρ : Type*) where
  obj : σ
  lock : RwLock
  thread : ℕ → Stage φ ℓ ο ρ
  count : ℕ
  history : List (Event ο ρ)

/-- A move of the thread `t`. -/
inductive FineMove (ο : Type*)
  | call (t : ℕ) (o : ο)
  | lock (t : ℕ)
  | access (t : ℕ)
  | unlock (t : ℕ)
  | ret (t : ℕ)
  deriving DecidableEq

namespace Fine

def new (s : σ) : Fine σ φ ℓ ο ρ := ⟨s, .free, fun _ => .idle, 0, []⟩

/-- The thread `t` goes on to `x`. -/
def set (c : Fine σ φ ℓ ο ρ) (t : ℕ) (x : Stage φ ℓ ο ρ) : Fine σ φ ℓ ο ρ :=
  { c with thread := Function.update c.thread t x }

def see (c : Fine σ φ ℓ ο ρ) (e : Event ο ρ) : Fine σ φ ℓ ο ρ :=
  { c with history := c.history ++ [e] }

@[simp] theorem set_self (c : Fine σ φ ℓ ο ρ) (t : ℕ) (x : Stage φ ℓ ο ρ) :
    (c.set t x).thread t = x := Function.update_self ..

theorem set_ne {t t' : ℕ} (h : t' ≠ t) (c : Fine σ φ ℓ ο ρ) (x : Stage φ ℓ ο ρ) :
    (c.set t x).thread t' = c.thread t' := Function.update_of_ne h ..

end Fine

/-- What is behind a section that comes to `x`. -/
def Stage.behind (n : ℕ) (o : ο) : ρ ⊕ φ → Stage φ ℓ ο ρ
  | .inl r => .answered n r
  | .inr g => .waiting n o g

namespace Bodies

variable (B : Bodies σ φ ℓ ο ρ)

def step (c : Fine σ φ ℓ ο ρ) : FineMove ο → Option (Fine σ φ ℓ ο ρ)
  | .call t o =>
      match c.thread t with
      | .idle =>
          some { (c.set t (.waiting c.count o (B.first o))).see (.called c.count t o) with
            count := c.count + 1 }
      | _ => none
  | .lock t =>
      match c.thread t with
      | .waiting n o f =>
          (c.lock.acquire t (B.mode f)).map fun lock =>
            { c.set t (.inside n o f (B.start f)) with lock := lock }
      | _ => none
  | .access t =>
      match c.thread t with
      | .inside n o f l =>
          (B.access l c.obj).map fun r => { c.set t (.inside n o f r.2) with obj := r.1 }
      | _ => none
  | .unlock t =>
      match c.thread t with
      | .inside n o _ l =>
          match B.out l, c.lock.release t with
          | some x, some lock => some { c.set t (.behind n o x) with lock := lock }
          | _, _ => none
      | _ => none
  | .ret t =>
      match c.thread t with
      | .answered n r => some ((c.set t .idle).see (.returned n t r))
      | _ => none

def system (s₀ : σ) : System (Fine σ φ ℓ ο ρ) (FineMove ο) := ⟨(· = .new s₀), B.step⟩

variable {B}

/-- **What a move does.** -/
inductive Moves (B : Bodies σ φ ℓ ο ρ) (c : Fine σ φ ℓ ο ρ) : Fine σ φ ℓ ο ρ → Prop
  | call {t o} : c.thread t = .idle →
      Moves B c { (c.set t (.waiting c.count o (B.first o))).see (.called c.count t o) with
        count := c.count + 1 }
  | lock {t n o f lock} : c.thread t = .waiting n o f → c.lock.acquire t (B.mode f) = some lock →
      Moves B c { c.set t (.inside n o f (B.start f)) with lock := lock }
  | access {t n o f l s l'} : c.thread t = .inside n o f l → B.access l c.obj = some (s, l') →
      Moves B c { c.set t (.inside n o f l') with obj := s }
  | unlock {t n o f l x lock} : c.thread t = .inside n o f l → B.out l = some x →
      c.lock.release t = some lock → Moves B c { c.set t (.behind n o x) with lock := lock }
  | ret {t n r} : c.thread t = .answered n r → Moves B c ((c.set t .idle).see (.returned n t r))

theorem moves {c c' : Fine σ φ ℓ ο ρ} {a : FineMove ο} (h : B.step c a = some c') : Moves B c c' := by
  cases a with
  | call t o =>
      simp only [step] at h
      split at h
      · obtain rfl := Option.some.inj h
        exact .call ‹_›
      · cases h
  | lock t =>
      simp only [step] at h
      split at h
      · obtain ⟨lock, hlock, rfl⟩ := Option.map_eq_some_iff.mp h
        exact .lock ‹_› hlock
      · cases h
  | access t =>
      simp only [step] at h
      split at h
      · obtain ⟨⟨s, l'⟩, haccess, rfl⟩ := Option.map_eq_some_iff.mp h
        exact .access ‹_› haccess
      · cases h
  | unlock t =>
      simp only [step] at h
      split at h
      · split at h
        · obtain rfl := Option.some.inj h
          exact .unlock ‹_› ‹_› ‹_›
        · cases h
      · cases h
  | ret t =>
      simp only [step] at h
      split at h
      · obtain rfl := Option.some.inj h
        exact .ret ‹_›
      · cases h

end Bodies

/-- **The bodies do what the sections do.** `At f s l s'`: the section `f`, begun on `s`, is at `l`, and
has made `s'` of it. -/
structure Implements (B : Bodies σ φ ℓ ο ρ) (M : Sections σ φ ο ρ) (At : φ → σ → ℓ → σ → Prop) :
    Prop where
  first : B.first = M.first
  start : ∀ f s, At f s (B.start f) s
  access : ∀ {f s l s₁ s₂ l'}, At f s l s₁ → B.access l s₁ = some (s₂, l') → At f s l' s₂
  out : ∀ {f s l s' x}, At f s l s' → B.out l = some x → M.run f s = some (s', x)
  /-- Under the read lock nothing is written. -/
  read : ∀ {f s l s'}, At f s l s' → B.mode f = .read → s' = s

namespace Implements

variable {B : Bodies σ φ ℓ ο ρ} {M : Sections σ φ ο ρ} {At : φ → σ → ℓ → σ → Prop}
  {c c' : Fine σ φ ℓ ο ρ} {a : Shared σ φ ο ρ}

/-- The thread `t` holds the lock as it is to. -/
def Held (B : Bodies σ φ ℓ ο ρ) (lock : RwLock) (t : ℕ) : Stage φ ℓ ο ρ → Prop
  | .inside _ _ f _ => ∀ m, lock.Holds t m ↔ m = B.mode f
  | _ => ∀ m, ¬ lock.Holds t m

/-- **The run in sections that `c` stands for**: those under way have not happened yet. -/
structure Follows (B : Bodies σ φ ℓ ο ρ) (At : φ → σ → ℓ → σ → Prop) (c : Fine σ φ ℓ ο ρ)
    (a : Shared σ φ ο ρ) : Prop where
  history : a.history = c.history
  count : a.count = c.count
  thread : ∀ t, a.thread t = (c.thread t).activity
  /-- Who is inside has made of the object what there is. -/
  inside : ∀ t n o f l, c.thread t = .inside n o f l → At f a.obj l c.obj
  settled : c.lock.writer = none → c.obj = a.obj
  held : ∀ t, Held B c.lock t (c.thread t)
  exclusive : c.lock.Exclusive

theorem Follows.new (s : σ) :
    Follows B At (.new s : Fine σ φ ℓ ο ρ) (.new s : Shared σ φ ο ρ) where
  history := rfl
  count := rfl
  thread := fun _ => rfl
  inside := fun t n o f l h => by cases h
  settled := fun _ => rfl
  held := by
    intro t m
    cases m with
    | read => exact Finset.notMem_empty t
    | write => exact fun h => by cases h
  exclusive := fun _ => rfl

theorem Follows.holds (h : Follows B At c a) {t n : ℕ} {o : ο} {f : φ} {l : ℓ}
    (ht : c.thread t = .inside n o f l) : c.lock.Holds t (B.mode f) := by
  have := h.held t
  rw [ht] at this
  exact (this _).mpr rfl

/-- Who is inside together with another thread only reads. -/
theorem Follows.reads (h : Follows B At c a) {t t' n n' : ℕ} {o o' : ο} {f f' : φ} {l l' : ℓ}
    (htt : t' ≠ t) (ht : c.thread t = .inside n o f l) (ht' : c.thread t' = .inside n' o' f' l') :
    B.mode f = .read := by
  cases hmode : B.mode f with
  | read => rfl
  | write =>
      have hholds := h.holds ht
      rw [hmode] at hholds
      exact absurd (h.exclusive.alone hholds (h.holds ht')) htt

/-- A thread moves that holds as much of the lock as before. -/
theorem held_set {t : ℕ} {x : Stage φ ℓ ο ρ} (hheld : ∀ t', Held B c.lock t' (c.thread t'))
    (ht : Held B c.lock t x) (t' : ℕ) : Held B c.lock t' ((c.set t x).thread t') := by
  exact (Function.forall_update_iff c.thread fun t' x => Held B c.lock t' x).mpr
    ⟨ht, fun t' _ => hheld t'⟩ t'

/-- The lock changes hands, and what the others hold is what they held. -/
theorem held_lock {t : ℕ} {x : Stage φ ℓ ο ρ} {lock : RwLock}
    (hheld : ∀ t', Held B c.lock t' (c.thread t')) (ht : Held B lock t x)
    (hother : ∀ t' m, t' ≠ t → (lock.Holds t' m ↔ c.lock.Holds t' m)) (t' : ℕ) :
    Held B lock t' ((c.set t x).thread t') := by
  refine (Function.forall_update_iff c.thread fun t' x => Held B lock t' x).mpr
    ⟨ht, fun t' htt => ?_⟩ t'
  have hheld := hheld t'
  cases hx : c.thread t' with
  | inside n o f l =>
      rw [hx] at hheld
      exact fun m => (hother t' m htt).trans (hheld m)
  | idle | waiting | answered =>
      rw [hx] at hheld
      exact fun m => (not_congr (hother t' m htt)).mpr (hheld m)

theorem thread_set {t : ℕ} {x : Stage φ ℓ ο ρ} {y : Activity φ ο ρ}
    (hthread : ∀ t', a.thread t' = (c.thread t').activity) (hxy : x.activity = y) (t' : ℕ) :
    (a.set t y).thread t' = ((c.set t x).thread t').activity := by
  by_cases htt : t' = t
  · subst htt
    rw [Shared.set_self, Fine.set_self, hxy]
  · rw [a.set_ne htt, c.set_ne htt]
    exact hthread t'

/-- A thread moves inside its section, or enters it. -/
theorem thread_stay {t : ℕ} {x : Stage φ ℓ ο ρ}
    (hthread : ∀ t', a.thread t' = (c.thread t').activity) (hx : x.activity = (c.thread t).activity)
    (t' : ℕ) : a.thread t' = ((c.set t x).thread t').activity := by
  exact (Function.forall_update_iff c.thread fun t' x => a.thread t' = x.activity).mpr
    ⟨(hthread t).trans hx.symm, fun t' _ => hthread t'⟩ t'

/-- **One move**, which the sections follow: with the same one, or with none. -/
theorem Follows.move (hB : Implements B M At) (h : Follows B At c a) (hmove : B.Moves c c') :
    Follows B At c' a ∨ ∃ x a', M.step a x = some a' ∧ Follows B At c' a' := by
  cases hmove with
  | @call t o hidle =>
      have hact : a.thread t = .idle := by
        rw [h.thread t, hidle]
        rfl
      have hheld := h.held t
      rw [hidle] at hheld
      refine .inr ⟨.call t o, _, by rw [Sections.step, hact], ?_⟩
      refine ⟨?_, ?_, ?_, ?_, h.settled, held_set h.held hheld, h.exclusive⟩
      · show a.history ++ [_] = c.history ++ [_]
        rw [h.history, h.count]
      · show a.count + 1 = c.count + 1
        rw [h.count]
      · refine thread_set h.thread ?_
        rw [hB.first, h.count]
        rfl
      · intro t' n o' f l ht'
        by_cases htt : t' = t
        · subst htt
          simp [Fine.see] at ht'
        · exact h.inside t' n o' f l ((c.set_ne htt _).symm.trans ht')
  | @lock t n o f lock ht hacq =>
      have hobj := h.settled (RwLock.acquire_writer hacq)
      refine .inl ⟨h.history, h.count, ?_, ?_, fun _ => hobj, ?_, RwLock.acquire_exclusive hacq⟩
      · refine thread_stay h.thread ?_
        rw [ht]
        rfl
      · intro t' n' o' f' l' ht'
        by_cases htt : t' = t
        · subst htt
          obtain ⟨rfl, rfl, rfl, rfl⟩ := by simpa using ht'
          show At f a.obj (B.start f) c.obj
          rw [hobj]
          exact hB.start f a.obj
        · exact h.inside t' n' o' f' l' ((c.set_ne htt _).symm.trans ht')
      · exact held_lock h.held (fun m => RwLock.acquire_self hacq)
          fun t' m htt => RwLock.acquire_other hacq htt
  | @access t n o f l s l' ht haccess =>
      have hbefore := h.inside t n o f l ht
      have hafter := hB.access hbefore haccess
      have hheld := h.held t
      rw [ht] at hheld
      refine .inl ⟨h.history, h.count, ?_, ?_, ?_, held_set h.held hheld, h.exclusive⟩
      · refine thread_stay h.thread ?_
        rw [ht]
        rfl
      · intro t' n' o' f' l'' ht'
        by_cases htt : t' = t
        · subst htt
          obtain ⟨rfl, rfl, rfl, rfl⟩ := by simpa using ht'
          exact hafter
        · have ht' := (c.set_ne htt _).symm.trans ht'
          -- two are inside, so nothing was written
          have hmode := h.reads htt ht ht'
          have hsame : s = c.obj := (hB.read hafter hmode).trans (hB.read hbefore hmode).symm
          show At f' a.obj l'' s
          rw [hsame]
          exact h.inside t' n' o' f' l'' ht'
      · intro hwriter
        refine hB.read hafter ?_
        cases hmode : B.mode f with
        | read => rfl
        | write =>
            have hholds := h.holds ht
            rw [hmode] at hholds
            exact absurd (hwriter.symm.trans hholds) (by simp)
  | @unlock t n o f l x lock ht hout hrel =>
      have hat := h.inside t n o f l ht
      have hrun := hB.out hat hout
      have hact : a.thread t = .within n o f := by
        rw [h.thread t, ht]
        rfl
      have hinside : ∀ t' n' o' f' l', (c.set t (.behind n o x)).thread t' = .inside n' o' f' l' →
          At f' c.obj l' c.obj := by
        intro t' n' o' f' l' ht'
        by_cases htt : t' = t
        · subst htt
          rw [Fine.set_self] at ht'
          cases x with
          | inl r => cases ht'
          | inr g => cases ht'
        · have ht' := (c.set_ne htt _).symm.trans ht'
          have hsame := hB.read hat (h.reads htt ht ht')
          have hat' := h.inside t' n' o' f' l' ht'
          rwa [← hsame] at hat'
      have hheld : ∀ t', Held B lock t' ((c.set t (.behind n o x)).thread t') := by
        refine held_lock h.held ?_ fun t' m htt => RwLock.release_other hrel htt
        cases x with
        | inl r => exact fun m => RwLock.release_self hrel h.exclusive
        | inr g => exact fun m => RwLock.release_self hrel h.exclusive
      refine .inr ⟨.go t, { a.set t (Stage.behind n o x : Stage φ ℓ ο ρ).activity with obj := c.obj },
        ?_, h.history, h.count, thread_set h.thread rfl, hinside, fun _ => rfl, hheld,
        RwLock.release_exclusive hrel h.exclusive⟩
      cases x with
      | inl r => simp only [Sections.step, hact, hrun, Stage.behind, Stage.activity]
      | inr g => simp only [Sections.step, hact, hrun, Stage.behind, Stage.activity]
  | @ret t n r ht =>
      have hact : a.thread t = .answered n r := by
        rw [h.thread t, ht]
        rfl
      have hheld := h.held t
      rw [ht] at hheld
      refine .inr ⟨.ret t, _, by rw [Sections.step, hact], ?_⟩
      refine ⟨?_, h.count, thread_set h.thread rfl, ?_, h.settled, held_set h.held hheld,
        h.exclusive⟩
      · show a.history ++ [_] = c.history ++ [_]
        rw [h.history]
      · intro t' n' o' f l ht'
        by_cases htt : t' = t
        · subst htt
          simp [Fine.see] at ht'
        · exact h.inside t' n' o' f l ((c.set_ne htt _).symm.trans ht')

/-- **Access by access, nothing else is seen than in sections.** -/
theorem exists_sections (hB : Implements B M At) {s₀ : σ} (hc : (B.system s₀).Reachable c) :
    ∃ a, (M.system s₀).Reachable a ∧ a.history = c.history := by
  have hfollows : ∃ a, (M.system s₀).Reachable a ∧ Follows B At c a := by
    refine System.Reachable.invariant
      (P := fun c => ∃ a, (M.system s₀).Reachable a ∧ Follows B At c a) ?_ ?_ hc
    · rintro c rfl
      exact ⟨.new s₀, .init rfl, Follows.new s₀⟩
    · rintro c x c' ⟨a, ha, hac⟩ hstep
      rcases hac.move hB (Bodies.moves hstep) with hac' | ⟨y, a', hy, hac'⟩
      · exact ⟨a, ha, hac'⟩
      · exact ⟨a', .step ha trivial hy, hac'⟩
  obtain ⟨a, ha, hac⟩ := hfollows
  exact ⟨a, ha, hac.history⟩

end Implements

end Sylar.Lib
