/-
# Sylar.Worker.Poll — how long `idle` lets `epoll_wait` block.

`idle` takes the delay that `getNextTimer` answers, cuts it to `MAX_TIMEOUT`, and waits again with
what it has cut it to for as long as `epoll_wait` is interrupted.  The delay is a `uint64_t`, and it is
compared, and handed over, as an `int`.

The cut is idempotent (`capped_capped`), so an interrupted wait is repeated with the same argument and
the whole loop comes down to one cast.  What that casts away decides (`poll_bounded_iff`): a delay of
`2 ^ 31` is a negative one, which is for ever, and one of `2 ^ 32 + 5` is five milliseconds.
-/
import Sylar.Hook.DoIo
import Sylar.Timers.TimerSet
import Mathlib.Algebra.Group.Nat.Defs

namespace Sylar.Worker

open Timers (TimeManager timerSet maxU64)
open Hook (Result EINTR)

/-- `(int)x`. -/
def int (x : UInt64) : Int32 := x.toInt64.toInt32

/-- `static const int MAX_TIMEOUT`. -/
def MAX_TIMEOUT : Int32 := 3000

/-- What a round of the inner loop makes of `next_timeout`. -/
def capped (next_timeout : UInt64) : UInt64 :=
  if next_timeout ≠ maxU64 then
    if MAX_TIMEOUT < int next_timeout then MAX_TIMEOUT.toInt64.toUInt64 else next_timeout
  else MAX_TIMEOUT.toInt64.toUInt64

/-- The timeouts `epoll_wait` is given, where the waits before the last have been answered so. -/
def waits (next_timeout : UInt64) : List Result → List Int32
  | [] => [int (capped next_timeout)]
  | rt :: rest =>
      int (capped next_timeout) ::
        if rt = .error EINTR then waits (capped next_timeout) rest else []

/-- The wait is bounded by the delay `d` and by `MAX_TIMEOUT`, and by nothing else. -/
structure Bounded (d : UInt64) (timeout : Int32) : Prop where
  finite : 0 ≤ timeout.toInt
  cap : timeout.toInt ≤ 3000
  exact : timeout.toInt = min d.toNat 3000

theorem bounded_iff {d : UInt64} {timeout : Int32} : Bounded d timeout ↔
    0 ≤ timeout.toInt ∧ timeout.toInt ≤ 3000 ∧ timeout.toInt = min d.toNat 3000 :=
  ⟨fun ⟨hfin, hcap, hex⟩ => ⟨hfin, hcap, hex⟩, fun ⟨hfin, hcap, hex⟩ => ⟨hfin, hcap, hex⟩⟩

instance (d : UInt64) (timeout : Int32) : Decidable (Bounded d timeout) :=
  decidable_of_iff _ bounded_iff.symm

/-- There is no timer, or the delay is within the cap, or what is left of it as an `int` is not. -/
def CastSafe (d : UInt64) : Prop :=
  d = maxU64 ∨ d.toNat ≤ 3000 ∨ 3000 ≤ d.toNat % 2 ^ 32 ∧ d.toNat % 2 ^ 32 < 2 ^ 31

instance (d : UInt64) : Decidable (CastSafe d) :=
  inferInstanceAs (Decidable
    (d = maxU64 ∨ d.toNat ≤ 3000 ∨ 3000 ≤ d.toNat % 2 ^ 32 ∧ d.toNat % 2 ^ 32 < 2 ^ 31))

/-! ## The cut -/

/-- A cast to `int` leaves the last 32 bits, as a signed number. -/
theorem int_toInt (x : UInt64) : (int x).toInt = (x.toNat : Int).bmod (2 ^ 32) := by
  have hlong : x.toInt64.toInt = (x.toNat : Int).bmod (2 ^ 64) :=
    BitVec.toInt_eq_toNat_bmod x.toBitVec
  have hdvd : (2 ^ 32 : Nat) ∣ 2 ^ 64 := by decide
  show x.toInt64.toInt32.toInt = _
  rw [Int64.toInt_toInt32, hlong, Int.bmod_bmod_of_dvd hdvd]

theorem capped_cases (d : UInt64) : capped d = 3000 ∨ d ≠ maxU64 ∧ capped d = d := by
  unfold capped
  split
  · rename_i hd
    split
    · exact .inl (by decide)
    · exact .inr ⟨hd, rfl⟩
  · exact .inl (by decide)

/-- **The cut is idempotent.** -/
theorem capped_capped (d : UInt64) : capped (capped d) = capped d := by
  rcases capped_cases d with h | ⟨-, h⟩
  · rw [h]
    decide
  · rw [h, h]

/-- An interrupted wait is repeated as it was. -/
theorem waits_eq (d : UInt64) (answers : List Result) :
    ∀ t ∈ waits d answers, t = int (capped d) := by
  induction answers generalizing d with
  | nil =>
      intro t ht
      exact List.mem_singleton.mp ht
  | cons rt rest ih =>
      intro t ht
      rcases List.mem_cons.mp ht with rfl | hrest
      · rfl
      · split at hrest
        · rw [← capped_capped]
          exact ih (capped d) t hrest
        · cases hrest

/-- There is always a first wait. -/
theorem first_wait (d : UInt64) (answers : List Result) : int (capped d) ∈ waits d answers := by
  cases answers with
  | nil => exact List.mem_singleton_self _
  | cons rt rest => exact List.mem_cons_self

/-- What the comparison with the cap sees. -/
theorem max_lt_int (d : UInt64) : MAX_TIMEOUT < int d ↔ 3000 < (d.toNat : Int).bmod (2 ^ 32) := by
  rw [Int32.lt_iff_toInt_lt, int_toInt]
  rfl

/-- One wait, in exact arithmetic. -/
theorem bounded_capped_iff (d : UInt64) : Bounded d (int (capped d)) ↔ CastSafe d := by
  have hd : d.toNat < 2 ^ 64 := d.toNat_lt
  have hmax : d = maxU64 ↔ d.toNat = 2 ^ 64 - 1 := by
    rw [← UInt64.toNat_inj]
    rfl
  have hcap : (int (MAX_TIMEOUT.toInt64.toUInt64)).toInt = 3000 := by decide
  have hval : (int (capped d)).toInt =
      if d.toNat ≠ 2 ^ 64 - 1 then
        if 3000 < (d.toNat : Int).bmod (2 ^ 32) then 3000 else (d.toNat : Int).bmod (2 ^ 32)
      else 3000 := by
    unfold capped
    simp only [max_lt_int, ne_eq, hmax]
    split
    · split
      · exact hcap
      · exact int_toInt d
    · exact hcap
  have hbmod : (d.toNat : Int).bmod (2 ^ 32) =
      if d.toNat % 2 ^ 32 < 2 ^ 31 then ((d.toNat % 2 ^ 32 : Nat) : Int)
      else ((d.toNat % 2 ^ 32 : Nat) : Int) - 2 ^ 32 := by
    rw [Int.bmod_def]
    split <;> split <;> omega
  rw [bounded_iff, hval, CastSafe, hmax, hbmod]
  omega

/-! ## Every delay, every retry -/

/-- **`poll_bounded_iff`** — whatever the timer set, the clock, and the answers of `epoll_wait`, every
wait is bounded by the nearest timer and by three seconds exactly where the casts lose nothing that
matters. -/
theorem poll_bounded_iff (m : TimeManager) (now : UInt64) (answers : List Result) :
    (∀ t ∈ waits (m.getNextTimer now).2 answers, Bounded (m.getNextTimer now).2 t) ↔
      CastSafe (m.getNextTimer now).2 := by
  rw [← bounded_capped_iff]
  constructor
  · intro hall
    exact hall _ (first_wait _ answers)
  · intro hb t ht
    rw [waits_eq _ answers t ht]
    exact hb

/-- Any delay comes about: a timer of that period, asked for when the clock reads zero. -/
theorem exists_delay (d : UInt64) : ∃ m : TimeManager, timerSet.Reachable m ∧
    (m.getNextTimer 0).2 = d := by
  refine ⟨((TimeManager.new 0).addTimer 1 d (some 7) false 0).1, ?_, ?_⟩
  · exact .step (.init ⟨0, rfl⟩) trivial (a := .call (.addTimer 1 d (some 7) false 0)) rfl
  · show (if 0 + d ≤ 0 then 0 else 0 + d - 0) = d
    rw [UInt64.zero_add, UInt64.sub_zero]
    split
    · rename_i hle
      exact (UInt64.le_zero_iff.mp hle).symm
    · rfl

/-- A timer of `2 ^ 31` milliseconds lets the thread wait for ever, one of `2 ^ 32 + 5` for five. -/
theorem poll_unbounded :
    (¬ ∀ (m : TimeManager) (now : UInt64) (answers : List Result), timerSet.Reachable m →
      ∀ t ∈ waits (m.getNextTimer now).2 answers, Bounded (m.getNextTimer now).2 t) ∧
    waits 2147483648 [.error EINTR] = [-2147483648, -2147483648] ∧ waits 4294967301 [] = [5] := by
  refine ⟨fun h => ?_, by decide, by decide⟩
  obtain ⟨m, hm, hd⟩ := exists_delay 2147483648
  have hneg : ¬ Bounded 2147483648 (int (capped 2147483648)) := by decide
  have hall := h m 0 [] hm
  rw [hd] at hall
  exact hneg (hall _ (first_wait _ []))

end Sylar.Worker
