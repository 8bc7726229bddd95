/-
# Sylar.Lib.Locking — threads that take locks, and the order that keeps them going.

A `Skeleton` is what is left of a function when only its locks are looked at: sections one inside the
other or behind one another, branches and loops.  Its `Runs` are the sequences of `acquire` and `release`
it may go through.  In `locking` any finite number of threads make such calls, over locks that have
readers and writers; whether a reader waits for a writer that waits is a parameter.

A skeleton is `Above` a rank if inside every section it takes only locks of a higher rank than that of
the section.  If all calls are, there is no deadlock: in every reachable state somebody whose call has not
returned can go on (`exists_step`), and all calls return, whoever is to go on next (`returns`).
-/
import Sylar.Lib.Variant
import Mathlib.Data.Finset.Max

namespace Sylar.Lib

/-! ## Calls -/

/-- How a lock is held. -/
inductive Mode
  | read
  | write
  deriving DecidableEq, Repr

/-- A step of a call, over the locks `L`. -/
inductive LockOp (L : Type u)
  | acquire (l : L) (m : Mode)
  | release (l : L) (m : Mode)
  deriving DecidableEq, Repr

/-- The locks of a function. -/
inductive Skeleton (L : Type u)
  | skip
  /-- A section under the lock. -/
  | lock (l : L) (m : Mode) (body : Skeleton L)
  | seq (a b : Skeleton L)
  | branch (a b : Skeleton L)
  /-- Any number of rounds. -/
  | loop (round : Skeleton L)
  /-- For some object, of a number of them. -/
  | some {κ : Type} (body : κ → Skeleton L)

namespace Skeleton

variable {L : Type*}

/-- What a call may do. -/
inductive Runs : Skeleton L → List (LockOp L) → Prop
  | skip : Runs .skip []
  | lock {l : L} {m : Mode} {body : Skeleton L} {p : List (LockOp L)} (h : Runs body p) :
      Runs (.lock l m body) (.acquire l m :: (p ++ [.release l m]))
  | seq {a b : Skeleton L} {p q : List (LockOp L)} (ha : Runs a p) (hb : Runs b q) :
      Runs (.seq a b) (p ++ q)
  | left {a b : Skeleton L} {p : List (LockOp L)} (h : Runs a p) : Runs (.branch a b) p
  | right {a b : Skeleton L} {p : List (LockOp L)} (h : Runs b p) : Runs (.branch a b) p
  | done {round : Skeleton L} : Runs (.loop round) []
  | again {round : Skeleton L} {p q : List (LockOp L)} (hp : Runs round p)
      (hq : Runs (.loop round) q) : Runs (.loop round) (p ++ q)
  | some {κ : Type} {body : κ → Skeleton L} {n : κ} {p : List (LockOp L)} (h : Runs (body n) p) :
      Runs (.some body) p

/-- Every section takes locks of a higher rank than the one it is in. -/
def Above (rank : L → Nat) : Nat → Skeleton L → Prop
  | _, .skip => True
  | r, .lock l _ body => r < rank l ∧ body.Above rank (rank l)
  | r, .seq a b => a.Above rank r ∧ b.Above rank r
  | r, .branch a b => a.Above rank r ∧ b.Above rank r
  | r, .loop round => round.Above rank r
  | r, .some body => ∀ n, (body n).Above rank r

theorem Above.mono {rank : L → Nat} {r r' : Nat} {a : Skeleton L} (h : a.Above rank r) (hle : r' ≤ r) :
    a.Above rank r' := by
  induction a with
  | skip => trivial
  | lock l m body _ => exact ⟨lt_of_le_of_lt hle h.1, h.2⟩
  | seq a b iha ihb => exact ⟨iha h.1, ihb h.2⟩
  | branch a b iha ihb => exact ⟨iha h.1, ihb h.2⟩
  | loop round ih => exact ih h
  | some body ih => exact fun n => ih n (h n)

end Skeleton

section Discipline

variable {L : Type*} [DecidableEq L]

/-- The steps left to somebody who holds `held`: each lock ranks above those that are held, what is
released is held, and in the end nothing is. -/
def Disciplined (rank : L → Nat) : List (L × Mode) → List (LockOp L) → Prop
  | held, [] => held = []
  | held, .acquire l m :: p => (∀ x ∈ held, rank x.1 < rank l) ∧ Disciplined rank ((l, m) :: held) p
  | held, .release l m :: p => (l, m) ∈ held ∧ Disciplined rank (held.erase (l, m)) p

variable {rank : L → Nat} {held : List (L × Mode)}

/-- **Sections nest**: a call that is above the locks that are held ends with these. -/
theorem Skeleton.Runs.disciplined {a : Skeleton L} {p : List (LockOp L)} (h : a.Runs p) :
    ∀ {r : Nat} {held : List (L × Mode)} {q : List (LockOp L)}, a.Above rank r →
      (∀ x ∈ held, rank x.1 ≤ r) → Disciplined rank held q → Disciplined rank held (p ++ q) := by
  induction h with
  | skip => exact fun _ _ hq => hq
  | @lock l m body p _ ih =>
      intro r held q habove hheld hq
      have hlower : ∀ x ∈ held, rank x.1 < rank l := fun x hx => lt_of_le_of_lt (hheld x hx) habove.1
      rw [List.cons_append, List.append_assoc]
      refine ⟨hlower, ih habove.2 ?_ ?_⟩
      · intro x hx
        rcases List.mem_cons.mp hx with rfl | hx
        · exact le_rfl
        · exact le_of_lt (hlower x hx)
      · refine ⟨List.mem_cons_self, ?_⟩
        rw [List.erase_cons_head]
        exact hq
  | seq _ _ iha ihb =>
      intro r held q habove hheld hq
      rw [List.append_assoc]
      exact iha habove.1 hheld (ihb habove.2 hheld hq)
  | left _ ih => exact fun habove hheld hq => ih habove.1 hheld hq
  | right _ ih => exact fun habove hheld hq => ih habove.2 hheld hq
  | done => exact fun _ _ hq => hq
  | again _ _ ihp ihq =>
      intro r held q habove hheld hq
      rw [List.append_assoc]
      exact ihp habove hheld (ihq habove hheld hq)
  | some _ ih => exact fun habove hheld hq => ih (habove _) hheld hq

end Discipline

/-! ## Threads -/

/-- Threads, with what is left of their calls and the locks they hold. -/
structure Locks (ι : Type*) (L : Type*) where
  todo : ι → List (LockOp L)
  held : ι → List (L × Mode)

/-- A thread makes a call, or goes on with it. -/
inductive LockAct (ι : Type*) (L : Type*)
  | call (t : ι) (p : List (LockOp L))
  | op (t : ι)

namespace Locks

variable {ι : Type*} {L : Type*} [DecidableEq ι] [DecidableEq L]

/-- Nobody holds anything. -/
def initial : Locks ι L := ⟨fun _ => [], fun _ => []⟩

/-- A writer waits for the lock. -/
def Wanted (s : Locks ι L) (l : L) : Prop := ∃ t, (s.todo t).head? = some (.acquire l .write)

/-- The lock can be had. -/
def Free (writersFirst : Bool) (s : Locks ι L) (l : L) : Mode → Prop
  | .write => ∀ t, (l, .read) ∉ s.held t ∧ (l, .write) ∉ s.held t
  | .read => (∀ t, (l, .write) ∉ s.held t) ∧ (writersFirst = true → ¬ s.Wanted l)

instance [Fintype ι] (writersFirst : Bool) (s : Locks ι L) (l : L) (m : Mode) :
    Decidable (s.Free writersFirst l m) :=
  match m with
  | .write => inferInstanceAs (Decidable (∀ t, (l, .read) ∉ s.held t ∧ (l, .write) ∉ s.held t))
  | .read => inferInstanceAs (Decidable ((∀ t, (l, .write) ∉ s.held t) ∧
      (writersFirst = true → ¬ ∃ t, (s.todo t).head? = some (.acquire l .write))))

/-- The state behind a step of `t`. -/
def move (s : Locks ι L) (t : ι) (p : List (LockOp L)) (held : List (L × Mode)) : Locks ι L where
  todo := Function.update s.todo t p
  held := Function.update s.held t held

/-- A step. -/
def step [Fintype ι] (writersFirst : Bool) (s : Locks ι L) : LockAct ι L → Option (Locks ι L)
  | .call t p => guarded (s.todo t = []) (s.move t p (s.held t))
  | .op t =>
      match s.todo t with
      | [] => none
      | .acquire l m :: p => guarded (s.Free writersFirst l m) (s.move t p ((l, m) :: s.held t))
      | .release l m :: p => guarded ((l, m) ∈ s.held t) (s.move t p ((s.held t).erase (l, m)))

end Locks

/-- All interleavings of calls. -/
def locking (ι L : Type*) [DecidableEq ι] [DecidableEq L] [Fintype ι] (writersFirst : Bool) :
    System (Locks ι L) (LockAct ι L) where
  init s := s = .initial
  step s a := s.step writersFirst a

/-- The calls are made of these. -/
def Calls {ι L : Type*} (api : Skeleton L → Prop) (_ : Locks ι L) : LockAct ι L → Prop
  | .call _ p => ∃ a, api a ∧ a.Runs p
  | .op _ => True

/-- No new calls. -/
def GoesOn {ι L : Type*} (_ : Locks ι L) : LockAct ι L → Prop
  | .call _ _ => False
  | .op _ => True

namespace Locks

variable {ι : Type*} {L : Type*} [DecidableEq ι] [DecidableEq L] [Fintype ι]
variable {writersFirst : Bool} {rank : L → Nat} {s s' : Locks ι L}

/-- All threads keep the order. -/
def Orderly (rank : L → Nat) (s : Locks ι L) : Prop := ∀ t, Disciplined rank (s.held t) (s.todo t)

omit [Fintype ι] in
theorem Orderly.move (h : s.Orderly rank) {t : ι} {p : List (LockOp L)} {held : List (L × Mode)}
    (hp : Disciplined rank held p) : (s.move t p held).Orderly rank := by
  intro u
  unfold Locks.move
  by_cases hu : u = t
  · subst hu
    simpa using hp
  · simpa [hu] using h u

/-- What a step of a call does. -/
theorem op_cases {t : ι} (hstep : s.step writersFirst (.op t) = some s') :
    (∃ l m p, s.todo t = .acquire l m :: p ∧ s.Free writersFirst l m ∧
      s' = s.move t p ((l, m) :: s.held t)) ∨
    (∃ l m p, s.todo t = .release l m :: p ∧ (l, m) ∈ s.held t ∧
      s' = s.move t p ((s.held t).erase (l, m))) := by
  unfold step at hstep
  dsimp only at hstep
  split at hstep
  · cases hstep
  · rename_i l m p htodo
    obtain ⟨hfree, rfl⟩ := guarded_eq_some.mp hstep
    exact .inl ⟨l, m, p, htodo, hfree, rfl⟩
  · rename_i l m p htodo
    obtain ⟨hin, rfl⟩ := guarded_eq_some.mp hstep
    exact .inr ⟨l, m, p, htodo, hin, rfl⟩

theorem Orderly.op (h : s.Orderly rank) {t : ι} (hstep : s.step writersFirst (.op t) = some s') :
    s'.Orderly rank := by
  have ht := h t
  rcases op_cases hstep with ⟨l, m, p, htodo, -, rfl⟩ | ⟨l, m, p, htodo, -, rfl⟩
  · rw [htodo] at ht
    exact h.move ht.2
  · rw [htodo] at ht
    exact h.move ht.2

/-- **The step lemma.** -/
theorem Orderly.step {api : Skeleton L → Prop} (hapi : ∀ a, api a → a.Above rank 0)
    (h : s.Orderly rank) {a : LockAct ι L} (ha : Calls api s a)
    (hstep : s.step writersFirst a = some s') : s'.Orderly rank := by
  cases a with
  | call t p =>
      obtain ⟨hidle, rfl⟩ := guarded_eq_some.mp hstep
      obtain ⟨f, hf, hruns⟩ := ha
      have ht := h t
      rw [hidle] at ht
      have hnil : s.held t = [] := ht
      have hp : Disciplined rank [] (p ++ []) := hruns.disciplined (hapi f hf) (by simp) rfl
      rw [List.append_nil] at hp
      refine h.move ?_
      rw [hnil]
      exact hp
  | op t => exact h.op hstep

/-- The rank of the lock that comes next. -/
def next (rank : L → Nat) (s : Locks ι L) (t : ι) : Nat :=
  match (s.todo t).head? with
  | some (.acquire l _) => rank l
  | _ => 0

/-- Who cannot go on waits for a lock that is held, or for a writer that waits for it. -/
theorem blocked_cases (h : s.Orderly rank) {t : ι} (ht : s.todo t ≠ [])
    (hno : s.step writersFirst (.op t) = none) :
    ∃ l m p, s.todo t = .acquire l m :: p ∧ ¬ s.Free writersFirst l m := by
  have hdisc := h t
  unfold Locks.step at hno
  dsimp only at hno
  split at hno
  · rename_i hnil
    exact absurd hnil ht
  · rename_i l m p htodo
    refine ⟨l, m, p, htodo, ?_⟩
    intro hfree
    rw [guarded, if_pos hfree] at hno
    cases hno
  · -- what is to be released is held
    rename_i l m p htodo
    rw [htodo] at hdisc
    rw [guarded, if_pos hdisc.1] at hno
    cases hno

omit [DecidableEq ι] [Fintype ι] in
/-- Somebody holds the lock that a writer does not get. -/
theorem exists_holder {l : L} (h : ¬ s.Free writersFirst l .write) : ∃ u m, (l, m) ∈ s.held u := by
  unfold Free at h
  push Not at h
  obtain ⟨u, hu⟩ := h
  by_cases hread : (l, .read) ∈ s.held u
  · exact ⟨u, .read, hread⟩
  · exact ⟨u, .write, hu hread⟩

/-- **No deadlock**: while a call has not returned, somebody can go on. -/
theorem Orderly.exists_step (h : s.Orderly rank) {t : ι} (ht : s.todo t ≠ []) :
    ∃ u, s.step writersFirst (.op u) ≠ none := by
  by_contra hnone
  push Not at hnone
  -- of those that wait, somebody waits for a lock of the highest rank
  have hbusy : (Finset.univ.filter fun u => s.todo u ≠ []).Nonempty := ⟨t, by simpa using ht⟩
  obtain ⟨u, hu, hmax⟩ := Finset.exists_max_image _ (s.next rank) hbusy
  have hu : s.todo u ≠ [] := by simpa using hu
  obtain ⟨l, m, p, htodo, hfree⟩ := blocked_cases h hu (hnone u)
  have hheld : ∃ v m', (l, m') ∈ s.held v := by
    cases m with
    | write => exact exists_holder hfree
    | read =>
        unfold Free at hfree
        rw [not_and_or] at hfree
        rcases hfree with hwriter | hwanted
        · push Not at hwriter
          obtain ⟨v, hv⟩ := hwriter
          exact ⟨v, .write, hv⟩
        · push Not at hwanted
          obtain ⟨-, w, hw⟩ := hwanted
          -- the writer does not get it either
          have hwne : s.todo w ≠ [] := by
            intro hnil
            rw [hnil] at hw
            cases hw
          obtain ⟨l', m', p', hwtodo, hwfree⟩ := blocked_cases h hwne (hnone w)
          rw [hwtodo] at hw
          cases hw
          exact exists_holder hwfree
  obtain ⟨v, m', hv⟩ := hheld
  have hvne : s.todo v ≠ [] := by
    intro hnil
    have hdisc := h v
    rw [hnil] at hdisc
    rw [show s.held v = [] from hdisc] at hv
    cases hv
  obtain ⟨l', m'', p', hvtodo, -⟩ := blocked_cases h hvne (hnone v)
  have hdisc := h v
  rw [hvtodo] at hdisc
  have hlt : rank l < rank l' := hdisc.1 (l, m') hv
  have hle := hmax v (by simpa using hvne)
  simp only [next, hvtodo, htodo, List.head?_cons] at hle
  omega

/-! ## All calls return -/

/-- The steps that are left. -/
def left (s : Locks ι L) : Nat := ∑ t, (s.todo t).length

omit [DecidableEq L] in
theorem left_move {t : ι} {o : LockOp L} {p : List (LockOp L)} (h : s.todo t = o :: p)
    (held : List (L × Mode)) : (s.move t p held).left + 1 = s.left := by
  have hsum := sum_move (f := fun u => (s.todo u).length)
    (g := fun u => ((s.move t p held).todo u).length) t fun u hu => by simp [move, hu]
  have hself : (s.move t p held).todo t = p := by simp [move]
  unfold left
  rw [hself, h, List.length_cons] at hsum
  omega

theorem variant : (locking ι L writersFirst).Variant GoesOn (Orderly rank) left where
  keep := by
    intro s a s' h ha hstep
    cases a with
    | call t p => exact ha.elim
    | op t => exact h.op hstep
  lower := by
    intro s a s' _ ha hstep
    cases a with
    | call t p => exact ha.elim
    | op t =>
        rcases op_cases hstep with ⟨l, m, p, htodo, -, rfl⟩ | ⟨l, m, p, htodo, -, rfl⟩
        · have := left_move htodo ((l, m) :: s.held t)
          omega
        · have := left_move htodo ((s.held t).erase (l, m))
          omega

/-- From `s` on, if no new calls are made: the steps are bounded, whoever takes them; when nobody can
take one any more, all calls have returned and nothing is held; and that moment can be reached. -/
structure Returns (writersFirst : Bool) (s : Locks ι L) : Prop where
  bounded : ∀ as s', (locking ι L writersFirst).Along GoesOn s as →
    (locking ι L writersFirst).exec s as = some s' → as.length + s'.left ≤ s.left
  atEnd : ∀ as s', (locking ι L writersFirst).Along GoesOn s as →
    (locking ι L writersFirst).exec s as = some s' → (locking ι L writersFirst).AtRest GoesOn s' →
    ∀ t, s'.todo t = [] ∧ s'.held t = []
  reached : ∃ as s', (locking ι L writersFirst).Along GoesOn s as ∧
    (locking ι L writersFirst).exec s as = some s' ∧ ∀ t, s'.todo t = [] ∧ s'.held t = []

/-- At rest there is nothing left to do. -/
theorem Orderly.idle_of_atRest (h : s.Orderly rank)
    (hrest : (locking ι L writersFirst).AtRest GoesOn s) (t : ι) : s.todo t = [] ∧ s.held t = [] := by
  have hidle : s.todo t = [] := by
    by_contra hne
    obtain ⟨u, hu⟩ : ∃ u, s.step writersFirst (.op u) ≠ none := h.exists_step hne
    exact hu (hrest (.op u) trivial)
  have hdisc := h t
  rw [hidle] at hdisc
  exact ⟨hidle, hdisc⟩

/-- **All calls return.** -/
theorem Orderly.returns (h : s.Orderly rank) : Returns writersFirst s := by
  have hvar : (locking ι L writersFirst).Variant GoesOn (Orderly rank) left := variant
  refine ⟨?_, ?_, ?_⟩
  · intro as s' hal hrun
    exact (hvar.bounded h hal hrun).2
  · intro as s' hal hrun hrest
    exact (hvar.bounded h hal hrun).1.idle_of_atRest hrest
  · obtain ⟨as, s', hal, hrun, hrest⟩ := hvar.exists_rest h
    exact ⟨as, s', hal, hrun, (hvar.bounded h hal hrun).1.idle_of_atRest hrest⟩

end Locks

end Sylar.Lib
