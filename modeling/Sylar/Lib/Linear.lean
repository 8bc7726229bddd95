/-
# Sylar.Lib.Linear — objects that several threads call at once.

A call goes through sections.  While a thread is in a section nobody else touches the object (a lock sees
to that); between two sections of a call others may come.  The last section gives the answer, which is
returned some time later.

What is seen from outside is a history of calls and returns.  A sequential history *accounts* for it if
the specification allows it, each call is in it at most once, with the answer that was returned, and
two calls that do not overlap keep their order.  `Atomic.explained` finds one for every run: the calls in
the order of the sections that answered them.  What has to be shown is about one section: it leaves the
abstract state as it was and makes the assertion of the section behind it true (`passed`), or answers as
prescribed (`answered`), and the sections of the calls that may overlap with it do not break its
assertion (`stable`).
-/
import Sylar.Lib.Refine
import Sylar.Lib.Transition
import Mathlib.Data.List.Nodup

namespace Sylar.Lib

/-! ## Histories -/

section

variable {α : Type*}

/-- `a` comes before `b` in `l`. -/
def Before (l : List α) (a b : α) : Prop := [a, b].Sublist l

instance [DecidableEq α] (l : List α) (a b : α) : Decidable (Before l a b) :=
  inferInstanceAs (Decidable ([a, b].Sublist l))

theorem Before.left_mem {l : List α} {a b : α} (h : Before l a b) : a ∈ l :=
  h.subset (by simp)

theorem before_concat {l : List α} {a b x : α} :
    Before (l ++ [x]) a b ↔ Before l a b ∨ a ∈ l ∧ b = x := by
  constructor
  · intro h
    obtain ⟨l₁, l₂, heq, h₁, h₂⟩ := List.sublist_append_iff.mp h
    rcases List.sublist_singleton.mp h₂ with rfl | rfl
    · rw [List.append_nil] at heq
      rw [← heq] at h₁
      exact .inl h₁
    · have hsplit : [a] ++ [b] = l₁ ++ [x] := heq
      obtain ⟨rfl, hbx⟩ := List.append_inj' hsplit rfl
      exact .inr ⟨List.singleton_sublist.mp h₁, List.singleton_inj.mp hbx⟩
  · rintro (h | ⟨ha, rfl⟩)
    · exact h.trans (List.sublist_append_left l [x])
    · exact (List.singleton_sublist.mpr ha).append (List.Sublist.refl [b])

end

variable {σ τ φ ο ρ : Type*}

/-- What is seen of the calls: `n` is the number of the call, `t` the thread. -/
inductive Event (ο ρ : Type*)
  | called (n t : ℕ) (o : ο)
  | returned (n t : ℕ) (r : ρ)
  deriving DecidableEq

def Event.number : Event ο ρ → ℕ
  | .called n _ _ | .returned n _ _ => n

/-- The operation that is called. -/
def Event.op? : Event ο ρ → Option ο
  | .called _ _ o => some o
  | .returned .. => none

/-- A call of a sequential history. -/
structure Entry (ο ρ : Type*) where
  number : ℕ
  op : ο
  answer : ρ
  deriving DecidableEq

/-- **A sequential history accounts for what is seen.** -/
structure Accounts (S : Spec τ ο ρ) (t₀ : τ) (history : List (Event ο ρ)) (log : List (Entry ο ρ))
    (t₁ : τ) : Prop where
  /-- The specification allows it. -/
  run : S.Run t₀ (log.map Entry.op) (log.map Entry.answer) t₁
  /-- A call is in it at most once, ... -/
  once : (log.map Entry.number).Nodup
  /-- ... and only if it was made. -/
  made : ∀ e ∈ log, ∃ t, Event.called e.number t e.op ∈ history
  /-- What has returned is in it, with its answer. -/
  given : ∀ n t r, Event.returned n t r ∈ history → ∃ o, ⟨n, o, r⟩ ∈ log
  /-- A call that was made when another one had returned comes behind it. -/
  ordered : ∀ i t r j t' o, Before history (.returned i t r) (.called j t' o) →
    j ∈ log.map Entry.number → Before (log.map Entry.number) i j

/-- Some sequential history does. -/
def Linearizable (S : Spec τ ο ρ) (t₀ : τ) (history : List (Event ο ρ)) : Prop :=
  ∃ log t₁, Accounts S t₀ history log t₁

/-- Neither of the calls `i` and `j` was made when the other one had returned. -/
def Overlap (history : List (Event ο ρ)) (i j : ℕ) : Prop :=
  (∀ t r t' o, ¬ Before history (.returned i t r) (.called j t' o)) ∧
    ∀ t r t' o, ¬ Before history (.returned j t r) (.called i t' o)

/-- Calls that overlap are `apart`. -/
def OverlapsApart (apart : ο → ο → Prop) (history : List (Event ο ρ)) : Prop :=
  ∀ i t o j t' o', Event.called i t o ∈ history → Event.called j t' o' ∈ history → i ≠ j →
    Overlap history i j → apart o o'

namespace Spec

variable {S S' : Spec τ ο ρ}

theorem Run.concat {t t₁ t₂ : τ} {o : ο} {r : ρ} {os : List ο} {rs : List ρ} (h : S.Run t os rs t₁)
    (hlast : S t₁ o r t₂) : S.Run t (os ++ [o]) (rs ++ [r]) t₂ := by
  induction h with
  | nil => exact .cons hlast .nil
  | cons hcall _ ih => exact .cons hcall (ih hlast)

theorem Run.mono (hS : ∀ {t o r t'}, S t o r t' → S' t o r t') {t t₁ : τ} {os : List ο}
    {rs : List ρ} (h : S.Run t os rs t₁) : S'.Run t os rs t₁ := by
  induction h with
  | nil => exact .nil
  | cons hcall _ ih => exact .cons (hS hcall) ih

end Spec

/-- What a weaker specification accounts for. -/
theorem Linearizable.mono {S S' : Spec τ ο ρ} (hS : ∀ {t o r t'}, S t o r t' → S' t o r t') {t₀ : τ}
    {history : List (Event ο ρ)} (h : Linearizable S t₀ history) : Linearizable S' t₀ history := by
  obtain ⟨log, t₁, hlog⟩ := h
  exact ⟨log, t₁, { hlog with run := hlog.run.mono hS }⟩

/-! ## Calls in sections -/

/-- How the calls `ο` go through sections `φ`: a section answers or leads to another one, or it is not
to be run. -/
structure Sections (σ φ ο ρ : Type*) where
  first : ο → φ
  run : φ → σ → Option (σ × (ρ ⊕ φ))

/-- What a thread is doing. -/
inductive Activity (φ ο ρ : Type*)
  | idle
  /-- It has called, and its next section is `f`. -/
  | within (n : ℕ) (o : ο) (f : φ)
  /-- It has its answer. -/
  | answered (n : ℕ) (r : ρ)
  deriving DecidableEq

/-- The object, the threads that call it, and what has been seen. -/
structure Shared (σ φ ο ρ : Type*) where
  obj : σ
  thread : ℕ → Activity φ ο ρ
  /-- The number of the next call. -/
  count : ℕ
  history : List (Event ο ρ)

/-- A move of the thread `t`. -/
inductive Move (ο : Type*)
  | call (t : ℕ) (o : ο)
  | go (t : ℕ)
  | ret (t : ℕ)
  deriving DecidableEq

namespace Shared

/-- Nobody has called yet. -/
def new (s : σ) : Shared σ φ ο ρ := ⟨s, fun _ => .idle, 0, []⟩

/-- The thread `t` goes on to `a`. -/
def set (c : Shared σ φ ο ρ) (t : ℕ) (a : Activity φ ο ρ) : Shared σ φ ο ρ :=
  { c with thread := Function.update c.thread t a }

def see (c : Shared σ φ ο ρ) (e : Event ο ρ) : Shared σ φ ο ρ :=
  { c with history := c.history ++ [e] }

@[simp] theorem set_self (c : Shared σ φ ο ρ) (t : ℕ) (a : Activity φ ο ρ) :
    (c.set t a).thread t = a := Function.update_self ..

theorem set_ne {t t' : ℕ} (h : t' ≠ t) (c : Shared σ φ ο ρ) (a : Activity φ ο ρ) :
    (c.set t a).thread t' = c.thread t' := Function.update_of_ne h ..

/-- Calls under way at the same time are `apart`. -/
def Keeps (apart : ο → ο → Prop) (c : Shared σ φ ο ρ) : Prop :=
  ∀ t t' n o f n' o' f', t ≠ t' → c.thread t = .within n o f → c.thread t' = .within n' o' f' →
    apart o o'

end Shared

namespace Sections

variable (M : Sections σ φ ο ρ)

def step (c : Shared σ φ ο ρ) : Move ο → Option (Shared σ φ ο ρ)
  | .call t o =>
      match c.thread t with
      | .idle =>
          some { (c.set t (.within c.count o (M.first o))).see (.called c.count t o) with
            count := c.count + 1 }
      | _ => none
  | .go t =>
      match c.thread t with
      | .within n o f =>
          match M.run f c.obj with
          | some (s, .inl r) => some { c.set t (.answered n r) with obj := s }
          | some (s, .inr g) => some { c.set t (.within n o g) with obj := s }
          | none => none
      | _ => none
  | .ret t =>
      match c.thread t with
      | .answered n r => some ((c.set t .idle).see (.returned n t r))
      | _ => none

/-- Threads that call the object, which is `s₀` at first. -/
def system (s₀ : σ) : System (Shared σ φ ο ρ) (Move ο) := ⟨(· = .new s₀), M.step⟩

variable {M}

/-- **What a move does.** -/
inductive Moves (M : Sections σ φ ο ρ) (c : Shared σ φ ο ρ) : Shared σ φ ο ρ → Prop
  | call {t o} : c.thread t = .idle →
      Moves M c { (c.set t (.within c.count o (M.first o))).see (.called c.count t o) with
        count := c.count + 1 }
  | answer {t n o f s r} : c.thread t = .within n o f → M.run f c.obj = some (s, .inl r) →
      Moves M c { c.set t (.answered n r) with obj := s }
  | pass {t n o f s g} : c.thread t = .within n o f → M.run f c.obj = some (s, .inr g) →
      Moves M c { c.set t (.within n o g) with obj := s }
  | ret {t n r} : c.thread t = .answered n r → Moves M c ((c.set t .idle).see (.returned n t r))

theorem moves {c c' : Shared σ φ ο ρ} {a : Move ο} (h : M.step c a = some c') : Moves M c c' := by
  cases a with
  | call t o =>
      simp only [step] at h
      split at h
      · obtain rfl := Option.some.inj h
        exact .call ‹_›
      · cases h
  | go t =>
      simp only [step] at h
      split at h
      · split at h
        · obtain rfl := Option.some.inj h
          exact .answer ‹_› ‹_›
        · obtain rfl := Option.some.inj h
          exact .pass ‹_› ‹_›
        · cases h
      · cases h
  | ret t =>
      simp only [step] at h
      split at h
      · obtain rfl := Option.some.inj h
        exact .ret ‹_›
      · cases h

end Sections

/-! ## What is known of a call from the history -/

/-- What a thread is doing has been seen. -/
def Activity.Seen (history : List (Event ο ρ)) (t : ℕ) : Activity φ ο ρ → Prop
  | .idle => True
  | .within n o _ => Event.called n t o ∈ history ∧ ∀ t' r, Event.returned n t' r ∉ history
  | .answered n _ => ∃ o, Event.called n t o ∈ history

/-- The calls of the history, and those under way. -/
structure Seen (c : Shared σ φ ο ρ) : Prop where
  thread : ∀ t, (c.thread t).Seen c.history t
  fresh : ∀ e ∈ c.history, e.number < c.count
  /-- A call is one thread's. -/
  own : ∀ n t o t' o', Event.called n t o ∈ c.history → Event.called n t' o' ∈ c.history → t = t'

namespace Seen

variable {M : Sections σ φ ο ρ} {c c' : Shared σ φ ο ρ} {t t' n n' : ℕ} {o o' : ο} {f f' : φ} {r : ρ}

theorem new (s : σ) : Seen (Shared.new s : Shared σ φ ο ρ) where
  thread := fun _ => trivial
  fresh := by simp [Shared.new]
  own := by simp [Shared.new]

theorem of_within (h : Seen c) (ht : c.thread t = .within n o f) :
    Event.called n t o ∈ c.history ∧ ∀ t' r, Event.returned n t' r ∉ c.history := by
  have := h.thread t
  rwa [ht] at this

theorem of_answered (h : Seen c) (ht : c.thread t = .answered n r) :
    ∃ o, Event.called n t o ∈ c.history := by
  have := h.thread t
  rwa [ht] at this

/-- The number of the next call has not been seen. -/
theorem not_called (h : Seen c) : Event.called c.count t o ∉ c.history :=
  fun hin => Nat.lt_irrefl _ (h.fresh _ hin)

/-- Two threads are in two calls. -/
theorem number_ne (h : Seen c) (htt : t' ≠ t) (ht : c.thread t = .within n o f)
    (ht' : c.thread t' = .within n' o' f') : n' ≠ n := by
  rintro rfl
  exact htt (h.own n' t' o' t o (h.of_within ht').1 (h.of_within ht).1)

/-- After a move of `t` the others have been seen as they were, and `t` has. -/
theorem thread_set {history : List (Event ο ρ)} {a : Activity φ ο ρ}
    (hother : ∀ t', t' ≠ t → (c.thread t').Seen history t') (ht : a.Seen history t) (t' : ℕ) :
    ((c.set t a).thread t').Seen history t' := by
  exact (Function.forall_update_iff c.thread fun t x => Activity.Seen history t x).mpr
    ⟨ht, hother⟩ t'

theorem move (h : Seen c) (hmove : M.Moves c c') : Seen c' := by
  cases hmove with
  | @call t o hidle =>
      have hback : ∀ {n' t' r}, Event.returned n' t' r ∈ c.history ++ [Event.called c.count t o] →
          Event.returned n' t' r ∈ c.history := fun hin => by simpa using hin
      refine ⟨thread_set (fun t' htt => ?_) ?_, ?_, ?_⟩
      · cases ht' : c.thread t' with
        | idle => trivial
        | within n' o' f' =>
            obtain ⟨hcalled, hret⟩ := h.of_within ht'
            exact ⟨List.mem_append_left _ hcalled, fun t₁ r hin => hret t₁ r (hback hin)⟩
        | answered n' r =>
            obtain ⟨o', hcalled⟩ := h.of_answered ht'
            exact ⟨o', List.mem_append_left _ hcalled⟩
      · refine ⟨List.mem_append_right _ (List.mem_singleton.mpr rfl), fun t' r hin => ?_⟩
        exact Nat.lt_irrefl _ (h.fresh _ (hback hin))
      · intro e he
        rcases List.mem_append.mp he with he | he
        · exact Nat.lt_succ_of_lt (h.fresh e he)
        · obtain rfl := List.mem_singleton.mp he
          exact Nat.lt_succ_self c.count
      · intro n t₁ o₁ t₂ o₂ h₁ h₂
        rcases List.mem_append.mp h₁ with h₁ | h₁
        · rcases List.mem_append.mp h₂ with h₂ | h₂
          · exact h.own n t₁ o₁ t₂ o₂ h₁ h₂
          · obtain ⟨rfl, -, -⟩ := by simpa using h₂
            exact absurd h₁ h.not_called
        · obtain ⟨rfl, rfl, -⟩ := by simpa using h₁
          rcases List.mem_append.mp h₂ with h₂ | h₂
          · exact absurd h₂ h.not_called
          · obtain ⟨rfl, -⟩ := by simpa using h₂
            rfl
  | @answer t n o f s r ht hrun =>
      exact ⟨thread_set (fun t' _ => h.thread t') ⟨o, (h.of_within ht).1⟩, h.fresh, h.own⟩
  | @pass t n o f s g ht hrun =>
      exact ⟨thread_set (fun t' _ => h.thread t') (h.of_within ht), h.fresh, h.own⟩
  | @ret t n r ht =>
      obtain ⟨o, hcalled⟩ := h.of_answered ht
      have hseen : ∀ {n' t' o'}, Event.called n' t' o' ∈ c.history ++ [Event.returned n t r] →
          Event.called n' t' o' ∈ c.history := fun hin => by simpa using hin
      refine ⟨thread_set (fun t' htt => ?_) trivial, ?_, ?_⟩
      · cases ht' : c.thread t' with
        | idle => trivial
        | within n' o' f' =>
            obtain ⟨hcalled', hret⟩ := h.of_within ht'
            refine ⟨List.mem_append_left _ hcalled', fun t₁ r₁ hin => ?_⟩
            rcases List.mem_append.mp hin with hin | hin
            · exact hret t₁ r₁ hin
            · obtain ⟨rfl, -, -⟩ := by simpa using hin
              exact htt (h.own n' t' o' t o hcalled' hcalled)
        | answered n' r' =>
            obtain ⟨o', hcalled'⟩ := h.of_answered ht'
            exact ⟨o', List.mem_append_left _ hcalled'⟩
      · intro e he
        rcases List.mem_append.mp he with he | he
        · exact h.fresh e he
        · obtain rfl := List.mem_singleton.mp he
          exact h.fresh (.called n t o) hcalled
      · exact fun n' t₁ o₁ t₂ o₂ h₁ h₂ => h.own n' t₁ o₁ t₂ o₂ (hseen h₁) (hseen h₂)

theorem of_reachable {C : Shared σ φ ο ρ → Move ο → Prop} {s₀ : σ}
    (hc : (M.system s₀).ReachableWhen C c) : Seen c := by
  refine hc.invariant ?_ ?_
  · rintro c rfl
    exact new s₀
  · intro c a c' h _ hstep
    exact h.move (Sections.moves hstep)

/-- Calls under way at the same time overlap. -/
theorem keeps (h : Seen c) {apart : ο → ο → Prop} (hapart : OverlapsApart apart c.history) :
    c.Keeps apart := by
  intro t t' n o f n' o' f' htt ht ht'
  obtain ⟨hcalled, hret⟩ := h.of_within ht
  obtain ⟨hcalled', hret'⟩ := h.of_within ht'
  refine hapart n t o n' t' o' hcalled hcalled' (h.number_ne htt ht' ht) ⟨?_, ?_⟩
  · exact fun t₁ r t₂ o₂ hbefore => hret t₁ r hbefore.left_mem
  · exact fun t₁ r t₂ o₂ hbefore => hret' t₁ r hbefore.left_mem

end Seen

/-- Calls that overlap in a beginning of the history overlap in all of it. -/
theorem Seen.overlapsApart {M : Sections σ φ ο ρ} {c c' : Shared σ φ ο ρ} {apart : ο → ο → Prop}
    (h : Seen c) (hmove : M.Moves c c') (hapart : OverlapsApart apart c'.history) :
    OverlapsApart apart c.history := by
  cases hmove with
  | @call t₀ o₀ hidle =>
      -- the call that is new comes behind nothing of what the history had
      have hbefore : ∀ {i t r j t' o t₁ o₁}, Event.called j t₁ o₁ ∈ c.history →
          Before (c.history ++ [Event.called c.count t₀ o₀]) (.returned i t r) (.called j t' o) →
          Before c.history (.returned i t r) (.called j t' o) := by
        intro i t r j t' o t₁ o₁ hj hb
        refine (before_concat.mp hb).resolve_right fun hlast => ?_
        obtain ⟨rfl, -, -⟩ := by simpa using hlast.2
        exact h.not_called hj
      intro i t o j t' o' hi hj hne hover
      refine hapart i t o j t' o' (List.mem_append_left _ hi) (List.mem_append_left _ hj) hne
        ⟨?_, ?_⟩
      · exact fun t₁ r t₂ o₂ hb => hover.1 t₁ r t₂ o₂ (hbefore hj hb)
      · exact fun t₁ r t₂ o₂ hb => hover.2 t₁ r t₂ o₂ (hbefore hi hb)
  | answer | pass => exact hapart
  | @ret t₀ n₀ r₀ ht₀ =>
      have hbefore : ∀ {i t r j t' o},
          Before (c.history ++ [Event.returned n₀ t₀ r₀]) (.returned i t r) (.called j t' o) →
          Before c.history (.returned i t r) (.called j t' o) := by
        intro i t r j t' o hb
        refine (before_concat.mp hb).resolve_right fun hlast => ?_
        cases hlast.2
      intro i t o j t' o' hi hj hne hover
      refine hapart i t o j t' o' (List.mem_append_left _ hi) (List.mem_append_left _ hj) hne
        ⟨?_, ?_⟩
      · exact fun t₁ r t₂ o₂ hb => hover.1 t₁ r t₂ o₂ (hbefore hb)
      · exact fun t₁ r t₂ o₂ hb => hover.2 t₁ r t₂ o₂ (hbefore hb)

/-- A run whose overlapping calls are apart keeps them apart on the way. -/
theorem reachableWhen_of_overlaps {M : Sections σ φ ο ρ} {c : Shared σ φ ο ρ} {apart : ο → ο → Prop}
    {s₀ : σ} (hc : (M.system s₀).Reachable c) (hapart : OverlapsApart apart c.history) :
    (M.system s₀).ReachableWhen (fun c _ => c.Keeps apart) c := by
  induction hc with
  | init h => exact .init h
  | step hr _ hstep ih =>
      have hseen := Seen.of_reachable hr
      have hbefore := hseen.overlapsApart (Sections.moves hstep) hapart
      exact .step (ih hbefore) (hseen.keeps hbefore) hstep

/-- **Sections that make up the calls of `S`.** `At o f` is the assertion under which the call `o` enters
its section `f`; `apart o o'` says that `o` is not disturbed by `o'`. -/
structure Atomic (M : Sections σ φ ο ρ) (S : Spec τ ο ρ) (I : σ → Prop) (abs : σ → τ)
    (At : ο → φ → σ → Prop) (apart : ο → ο → Prop) : Prop where
  first : ∀ o s, At o (M.first o) s
  passed : ∀ {s s' o f g}, I s → At o f s → M.run f s = some (s', .inr g) →
    I s' ∧ abs s' = abs s ∧ At o g s'
  answered : ∀ {s s' o f r}, I s → At o f s → M.run f s = some (s', .inl r) →
    I s' ∧ S (abs s) o r (abs s')
  stable : ∀ {s s' o f o' f' x}, apart o o' → I s → At o f s → At o' f' s →
    M.run f' s = some (s', x) → At o f s'

namespace Accounts

variable {S : Spec τ ο ρ} {t₀ t₁ t₂ : τ} {history : List (Event ο ρ)} {log : List (Entry ο ρ)}
  {n t : ℕ} {o : ο} {r : ρ}

/-- A call has one entry. -/
theorem entry_unique (h : Accounts S t₀ history log t₁) {e e' : Entry ο ρ} (he : e ∈ log)
    (he' : e' ∈ log) (heq : e.number = e'.number) : e = e' :=
  List.inj_on_of_nodup_map h.once he he' heq

/-- Where every call has returned, the log is its calls with their answers, in some order. -/
theorem perm_of_complete (h : Accounts S t₀ history log t₁) {es : List (Entry ο ρ)}
    (honce : (es.map Entry.number).Nodup)
    (hcall : ∀ x ∈ history, ∀ o ∈ x.op?, ∃ e ∈ es, e.number = x.number ∧ e.op = o)
    (hret : ∀ e ∈ es, ∃ t, Event.returned e.number t e.answer ∈ history) : log.Perm es := by
  have hin : ∀ e ∈ es, e ∈ log := by
    intro e he
    obtain ⟨t, ht⟩ := hret e he
    obtain ⟨o, ho⟩ := h.given e.number t e.answer ht
    obtain ⟨t', hcalled⟩ := h.made _ ho
    obtain ⟨e', he', hnumber, hop⟩ := hcall _ hcalled o rfl
    obtain rfl := List.inj_on_of_nodup_map honce he' he hnumber
    rw [← hop] at ho
    exact ho
  refine (List.perm_ext_iff_of_nodup h.once.of_map honce.of_map).mpr fun e => ⟨fun he => ?_, hin e⟩
  obtain ⟨t, hcalled⟩ := h.made e he
  obtain ⟨e', he', hnumber, -⟩ := hcall _ hcalled e.op rfl
  rw [h.entry_unique he (hin e' he') hnumber.symm]
  exact he'

/-- A new call is not in the log. -/
theorem called (h : Accounts S t₀ history log t₁) (hnew : n ∉ log.map Entry.number) :
    Accounts S t₀ (history ++ [.called n t o]) log t₁ where
  run := h.run
  once := h.once
  made := by
    intro e he
    obtain ⟨t', ht'⟩ := h.made e he
    exact ⟨t', List.mem_append_left _ ht'⟩
  given := by
    intro n' t' r' hret
    exact h.given n' t' r' (by simpa using hret)
  ordered := by
    intro i t' r' j t'' o' hbefore hj
    rcases before_concat.mp hbefore with hbefore | ⟨-, heq⟩
    · exact h.ordered i t' r' j t'' o' hbefore hj
    · injection heq with hjn
      exact absurd (hjn ▸ hj) hnew

/-- The answer of a section goes to the end of the log. -/
theorem answer (h : Accounts S t₀ history log t₁) (hcalled : Event.called n t o ∈ history)
    (hnew : n ∉ log.map Entry.number) (hspec : S t₁ o r t₂) :
    Accounts S t₀ history (log ++ [⟨n, o, r⟩]) t₂ where
  run := by
    simp only [List.map_append, List.map_cons, List.map_nil]
    exact h.run.concat hspec
  once := by
    simp only [List.map_append, List.map_cons, List.map_nil]
    refine List.nodup_append.mpr ⟨h.once, List.nodup_singleton n, ?_⟩
    intro a ha b hb hab
    obtain rfl := List.mem_singleton.mp hb
    exact hnew (hab ▸ ha)
  made := by
    intro e he
    rcases List.mem_append.mp he with he | he
    · exact h.made e he
    · obtain rfl := List.mem_singleton.mp he
      exact ⟨t, hcalled⟩
  given := by
    intro n' t' r' hret
    obtain ⟨o', ho'⟩ := h.given n' t' r' hret
    exact ⟨o', List.mem_append_left _ ho'⟩
  ordered := by
    intro i t' r' j t'' o' hbefore hj
    simp only [List.map_append, List.map_cons, List.map_nil] at hj ⊢
    rw [before_concat]
    rcases List.mem_append.mp hj with hj | hj
    · exact .inl (h.ordered i t' r' j t'' o' hbefore hj)
    · -- whatever has returned is in the log already
      obtain ⟨o₁, ho₁⟩ := h.given i t' r' hbefore.left_mem
      exact .inr ⟨List.mem_map.mpr ⟨_, ho₁, rfl⟩, List.mem_singleton.mp hj⟩

/-- An answer is returned. -/
theorem returned (h : Accounts S t₀ history log t₁) (hlog : ⟨n, o, r⟩ ∈ log) :
    Accounts S t₀ (history ++ [.returned n t r]) log t₁ where
  run := h.run
  once := h.once
  made := by
    intro e he
    obtain ⟨t', ht'⟩ := h.made e he
    exact ⟨t', List.mem_append_left _ ht'⟩
  given := by
    intro n' t' r' hret
    rcases List.mem_append.mp hret with hret | hret
    · exact h.given n' t' r' hret
    · obtain ⟨rfl, -, rfl⟩ := by simpa using hret
      exact ⟨o, hlog⟩
  ordered := by
    intro i t' r' j t'' o' hbefore hj
    rcases before_concat.mp hbefore with hbefore | ⟨-, heq⟩
    · exact h.ordered i t' r' j t'' o' hbefore hj
    · cases heq

end Accounts

namespace Atomic

variable {M : Sections σ φ ο ρ} {S : Spec τ ο ρ} {I : σ → Prop} {abs : σ → τ}
  {At : ο → φ → σ → Prop} {apart : ο → ο → Prop} {t₀ : τ} {c c' : Shared σ φ ο ρ}
  {log : List (Entry ο ρ)}

/-- What a thread has to do with the object and the log. -/
def Fits (At : ο → φ → σ → Prop) (s : σ) (log : List (Entry ο ρ)) : Activity φ ο ρ → Prop
  | .idle => True
  | .within n o f => At o f s ∧ n ∉ log.map Entry.number
  | .answered n r => ∃ o, ⟨n, o, r⟩ ∈ log

/-- `log` accounts for what has been seen, and fits the threads. -/
structure Tracks (S : Spec τ ο ρ) (I : σ → Prop) (abs : σ → τ) (At : ο → φ → σ → Prop) (t₀ : τ)
    (c : Shared σ φ ο ρ) (log : List (Entry ο ρ)) : Prop where
  accounts : Accounts S t₀ c.history log (abs c.obj)
  inv : I c.obj
  fits : ∀ t, Fits At c.obj log (c.thread t)

theorem Tracks.new {s : σ} (hs : I s) :
    Tracks S I abs At (abs s) (Shared.new s : Shared σ φ ο ρ) [] where
  accounts := ⟨.nil, List.nodup_nil, by simp, by simp [Shared.new], by simp⟩
  inv := hs
  fits := fun _ => trivial

theorem Tracks.of_within (h : Tracks S I abs At t₀ c log) {t n : ℕ} {o : ο} {f : φ}
    (ht : c.thread t = .within n o f) : At o f c.obj ∧ n ∉ log.map Entry.number := by
  have := h.fits t
  rwa [ht] at this

theorem Tracks.of_answered (h : Tracks S I abs At t₀ c log) {t n : ℕ} {r : ρ}
    (ht : c.thread t = .answered n r) : ∃ o, ⟨n, o, r⟩ ∈ log := by
  have := h.fits t
  rwa [ht] at this

/-- The next call is not in the log. -/
theorem Tracks.new_call (h : Tracks S I abs At t₀ c log) (hseen : Seen c) :
    c.count ∉ log.map Entry.number := by
  intro hn
  obtain ⟨e, he, heq⟩ := List.mem_map.mp hn
  obtain ⟨t, hcalled⟩ := h.accounts.made e he
  rw [heq] at hcalled
  exact hseen.not_called hcalled

/-- After a move of `t` the others fit as they did, and `t` does. -/
theorem fits_set {s : σ} {t : ℕ} {a : Activity φ ο ρ}
    (hother : ∀ t', t' ≠ t → Fits At s log (c.thread t')) (ht : Fits At s log a) (t' : ℕ) :
    Fits At s log ((c.set t a).thread t') := by
  exact (Function.forall_update_iff c.thread fun _ x => Fits At s log x).mpr
    ⟨ht, hother⟩ t'

/-- The assertions of the others survive a section. -/
theorem Tracks.stable (hM : Atomic M S I abs At apart) (h : Tracks S I abs At t₀ c log)
    (hc : c.Keeps apart) {t n : ℕ} {o : ο} {f : φ} {s : σ} {x : ρ ⊕ φ}
    (ht : c.thread t = .within n o f) (hrun : M.run f c.obj = some (s, x)) (t' : ℕ) (htt : t' ≠ t) :
    Fits At s log (c.thread t') := by
  cases ht' : c.thread t' with
  | idle => trivial
  | within n' o' f' =>
      obtain ⟨hat', hnew'⟩ := h.of_within ht'
      have hat := (h.of_within ht).1
      exact ⟨hM.stable (hc t' t n' o' f' n o f htt ht' ht) h.inv hat' hat hrun, hnew'⟩
  | answered n' r => exact h.of_answered ht'

/-- An answer in the log is no other thread's. -/
theorem fits_answer {s : σ} {n : ℕ} {o : ο} {r : ρ} {a : Activity φ ο ρ} (h : Fits At s log a)
    (hne : ∀ n' o' f', a = .within n' o' f' → n' ≠ n) : Fits At s (log ++ [⟨n, o, r⟩]) a := by
  cases a with
  | idle => trivial
  | within n' o' f' =>
      refine ⟨h.1, ?_⟩
      simp only [List.map_append, List.map_cons, List.map_nil, List.mem_append, List.mem_singleton,
        not_or]
      exact ⟨h.2, hne n' o' f' rfl⟩
  | answered n' r' =>
      obtain ⟨o', ho'⟩ := h
      exact ⟨o', List.mem_append_left _ ho'⟩

/-- **One move.** -/
theorem Tracks.move (hM : Atomic M S I abs At apart) (h : Tracks S I abs At t₀ c log)
    (hseen : Seen c) (hc : c.Keeps apart) (hmove : M.Moves c c') :
    ∃ log', Tracks S I abs At t₀ c' log' := by
  cases hmove with
  | @call t o hidle =>
      have hnew := h.new_call hseen
      refine ⟨log, h.accounts.called hnew, h.inv, ?_⟩
      exact fits_set (fun t' _ => h.fits t') ⟨hM.first o c.obj, hnew⟩
  | @answer t n o f s r ht hrun =>
      obtain ⟨hat, hnew⟩ := h.of_within ht
      obtain ⟨hinv, hspec⟩ := hM.answered h.inv hat hrun
      have haccounts := h.accounts.answer (hseen.of_within ht).1 hnew hspec
      refine ⟨log ++ [Entry.mk n o r], haccounts, hinv, ?_⟩
      refine fits_set (fun t' htt => ?_) ⟨o, List.mem_append_right _ (List.mem_singleton.mpr rfl)⟩
      exact fits_answer (h.stable hM hc ht hrun t' htt) fun n' o' f' => hseen.number_ne htt ht
  | @pass t n o f s g ht hrun =>
      obtain ⟨hat, hnew⟩ := h.of_within ht
      obtain ⟨hinv, habs, hnext⟩ := hM.passed h.inv hat hrun
      refine ⟨log, ?_, hinv, fits_set (h.stable hM hc ht hrun) ⟨hnext, hnew⟩⟩
      show Accounts S t₀ c.history log (abs s)
      rw [habs]
      exact h.accounts
  | @ret t n r ht =>
      obtain ⟨o, hlog⟩ := h.of_answered ht
      exact ⟨log, h.accounts.returned hlog, h.inv, fits_set (fun t' _ => h.fits t') trivial⟩

/-- **Every run can be put in a sequence**: the calls in the order of the sections that answered them. -/
theorem explained (hM : Atomic M S I abs At apart) {s₀ : σ} (hs : I s₀)
    (hc : (M.system s₀).Reachable c) (hapart : OverlapsApart apart c.history) :
    Linearizable S (abs s₀) c.history := by
  have hkept := reachableWhen_of_overlaps hc hapart
  have htracks : ∃ log, Tracks S I abs At (abs s₀) c log := by
    refine System.ReachableWhen.invariant_of
      (P := fun c => ∃ log, Tracks S I abs At (abs s₀) c log) (Q := Seen)
      (fun _ => Seen.of_reachable) ?_ ?_ hkept
    · rintro c rfl
      exact ⟨[], Tracks.new hs⟩
    · rintro c a c' hseen ⟨log, hlog⟩ hkeeps hstep
      exact hlog.move hM hseen hkeeps (Sections.moves hstep)
  obtain ⟨log, hlog⟩ := htracks
  exact ⟨log, abs c.obj, hlog.accounts⟩

end Atomic

end Sylar.Lib
