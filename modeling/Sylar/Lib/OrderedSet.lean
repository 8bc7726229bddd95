/-
# Sylar.Lib.OrderedSet — a set kept as a list in key order.

A `std::set` under a strict order is the list of its elements with strictly increasing keys.
`insertBy` is its `insert`, which keeps a new element out if an equivalent one is there; lower and
upper bounds are `dropWhile`s, and on an ordered list a `dropWhile` of a downward closed condition
is a filter (`dropWhile_eq_filter`), so that a bound never has to be followed element by element.

The keys of the elements may be rewritten behind the list's back, as long as no element of the list
is concerned (`Ordered.congr`).
-/
import Mathlib.Order.Lattice
import Mathlib.Data.List.Nodup

namespace Sylar.Lib

variable {α κ : Type*} [LinearOrder κ] {key : α → κ}

/-- The keys are strictly increasing. -/
def Ordered (key : α → κ) (xs : List α) : Prop := xs.Pairwise fun a b => key a < key b

/-- Insert `p` at its place; an element with the same key keeps it out. -/
def insertBy (key : α → κ) (p : α) : List α → List α
  | [] => [p]
  | q :: xs =>
      if key p < key q then p :: q :: xs
      else if key q < key p then q :: insertBy key p xs
      else q :: xs

namespace Ordered

theorem nil : Ordered key [] := List.Pairwise.nil

theorem cons_iff {a : α} {xs : List α} :
    Ordered key (a :: xs) ↔ (∀ b ∈ xs, key a < key b) ∧ Ordered key xs := List.pairwise_cons

/-- No element stands in the list twice. -/
theorem nodup {xs : List α} (h : Ordered key xs) : xs.Nodup := by
  refine List.Pairwise.imp ?_ h
  intro a b hab heq
  rw [heq] at hab
  exact lt_irrefl _ hab

theorem sublist {xs ys : List α} (h : Ordered key xs) (hsub : ys.Sublist xs) : Ordered key ys :=
  List.Pairwise.sublist hsub h

/-- The order does not depend on the keys of what is not in the list. -/
theorem congr {key' : α → κ} {xs : List α} (h : Ordered key xs)
    (hkey : ∀ a ∈ xs, key' a = key a) : Ordered key' xs := by
  refine List.Pairwise.imp_of_mem ?_ h
  intro a b ha hb hab
  rw [hkey a ha, hkey b hb]
  exact hab

/-- A key stands for one element. -/
theorem eq_of_key {xs : List α} (h : Ordered key xs) {a b : α} (ha : a ∈ xs) (hb : b ∈ xs)
    (hab : key a = key b) : a = b := by
  refine List.Pairwise.forall_of_forall_of_flip (R := fun a b => key a = key b → a = b)
    ?_ ?_ ?_ ha hb hab
  · intro c _ _
    rfl
  · exact h.imp fun hlt heq => absurd heq (ne_of_lt hlt)
  · exact h.imp fun hlt heq => absurd heq.symm (ne_of_lt hlt)

/-- The first element is the least. -/
theorem head_le {a : α} {xs : List α} (h : Ordered key (a :: xs)) {b : α} (hb : b ∈ a :: xs) :
    key a ≤ key b := by
  rcases List.mem_cons.mp hb with rfl | hb
  · exact le_rfl
  · exact le_of_lt ((cons_iff.mp h).1 b hb)

end Ordered

/-! ## Insertion -/

/-- Nothing but `p` is new. -/
theorem eq_or_mem_of_mem_insertBy {p x : α} : ∀ {xs : List α}, x ∈ insertBy key p xs →
    x = p ∨ x ∈ xs
  | [], hx => .inl (List.mem_singleton.mp hx)
  | q :: xs, hx => by
      unfold insertBy at hx
      split at hx
      · exact List.mem_cons.mp hx
      · split at hx
        · rcases List.mem_cons.mp hx with rfl | hx
          · exact .inr List.mem_cons_self
          · exact (eq_or_mem_of_mem_insertBy hx).imp_right (List.mem_cons_of_mem q)
        · exact .inr hx

/-- Where nothing equivalent is in the way, `p` gets in. -/
theorem mem_insertBy {p x : α} : ∀ {xs : List α}, (∀ q ∈ xs, key q ≠ key p) →
    (x ∈ insertBy key p xs ↔ x = p ∨ x ∈ xs)
  | [], _ => by simp [insertBy]
  | q :: xs, hne => by
      have hq : key q ≠ key p := hne q List.mem_cons_self
      have ih : x ∈ insertBy key p xs ↔ x = p ∨ x ∈ xs :=
        mem_insertBy fun r hr => hne r (List.mem_cons_of_mem q hr)
      unfold insertBy
      split
      · exact List.mem_cons
      · rename_i hpq
        have hqp : key q < key p := lt_of_le_of_ne (not_lt.mp hpq) hq
        rw [if_pos hqp, List.mem_cons, ih, List.mem_cons]
        exact or_left_comm

/-- Insertion keeps the order. -/
theorem Ordered.insertBy {p : α} : ∀ {xs : List α}, Ordered key xs → Ordered key (insertBy key p xs)
  | [], _ => List.pairwise_singleton _ _
  | q :: xs, h => by
      obtain ⟨hq, hxs⟩ := cons_iff.mp h
      unfold Lib.insertBy
      split
      · rename_i hpq
        refine cons_iff.mpr ⟨?_, h⟩
        intro r hr
        exact lt_of_lt_of_le hpq (h.head_le hr)
      · split
        · rename_i hqp
          refine cons_iff.mpr ⟨?_, Ordered.insertBy hxs⟩
          intro r hr
          rcases eq_or_mem_of_mem_insertBy hr with rfl | hr
          · exact hqp
          · exact hq r hr
        · exact h

/-- Behind everything. -/
theorem insertBy_of_forall_lt {p : α} : ∀ {xs : List α}, (∀ q ∈ xs, key q < key p) →
    insertBy key p xs = xs ++ [p]
  | [], _ => rfl
  | q :: xs, h => by
      have hq : key q < key p := h q List.mem_cons_self
      unfold insertBy
      rw [if_neg (lt_asymm hq), if_pos hq,
        insertBy_of_forall_lt fun r hr => h r (List.mem_cons_of_mem q hr)]
      rfl

/-- What is inserted in order stands as it came. -/
theorem foldl_insertBy : ∀ {xs ys : List α}, Ordered key (ys ++ xs) →
    xs.foldl (fun s p => insertBy key p s) ys = ys ++ xs
  | [], ys, _ => (List.append_nil ys).symm
  | p :: xs, ys, h => by
      have hp : ∀ q ∈ ys, key q < key p := fun q hq =>
        (List.pairwise_append.mp h).2.2 q hq p List.mem_cons_self
      have h' : Ordered key ((ys ++ [p]) ++ xs) := by rwa [List.append_assoc]
      rw [List.foldl_cons, insertBy_of_forall_lt hp, foldl_insertBy h', List.append_assoc]
      rfl

theorem insertBy_ne_nil (key : α → κ) (p : α) (xs : List α) : insertBy key p xs ≠ [] := by
  cases xs with
  | nil => simp [insertBy]
  | cons q xs =>
      unfold insertBy
      split
      · simp
      · split <;> simp

/-! ## Bounds -/

section Bounds

variable {c : α → Bool}

/-- A condition that holds in front of each element it holds at is cut off at once. -/
theorem dropWhile_eq_filter : ∀ {xs : List α},
    xs.Pairwise (fun a b => c b = true → c a = true) → xs.dropWhile c = xs.filter (!c ·)
  | [], _ => rfl
  | a :: xs, h => by
      obtain ⟨ha, hxs⟩ := List.pairwise_cons.mp h
      by_cases hc : c a = true
      · rw [List.dropWhile_cons_of_pos hc, List.filter_cons_of_neg (by simp [hc])]
        exact dropWhile_eq_filter hxs
      · rw [List.dropWhile_cons_of_neg hc, List.filter_cons_of_pos (by simpa using hc)]
        congr 1
        symm
        rw [List.filter_eq_self]
        intro b hb
        have : ¬ c b = true := fun hcb => hc (ha b hb hcb)
        simpa using this

theorem takeWhile_eq_filter : ∀ {xs : List α},
    xs.Pairwise (fun a b => c b = true → c a = true) → xs.takeWhile c = xs.filter c
  | [], _ => rfl
  | a :: xs, h => by
      obtain ⟨ha, hxs⟩ := List.pairwise_cons.mp h
      by_cases hc : c a = true
      · rw [List.takeWhile_cons_of_pos hc, List.filter_cons_of_pos hc, takeWhile_eq_filter hxs]
      · rw [List.takeWhile_cons_of_neg hc, List.filter_cons_of_neg hc]
        symm
        rw [List.filter_eq_nil_iff]
        exact fun b hb hcb => hc (ha b hb hcb)

omit [LinearOrder κ] in
/-- What is in front of the place where a `dropWhile` stops. -/
theorem take_sub_dropWhile (xs : List α) :
    xs.take (xs.length - (xs.dropWhile c).length) = xs.takeWhile c := by
  have hsplit : xs.takeWhile c ++ xs.dropWhile c = xs := List.takeWhile_append_dropWhile
  have hlen : xs.length - (xs.dropWhile c).length = (xs.takeWhile c).length := by
    have := congrArg List.length hsplit
    rw [List.length_append] at this
    omega
  rw [hlen]
  calc xs.take (xs.takeWhile c).length
      = (xs.takeWhile c ++ xs.dropWhile c).take (xs.takeWhile c).length := by rw [hsplit]
    _ = xs.takeWhile c := List.take_left

end Bounds

/-- The lower bound of an element's own key starts with the element. -/
theorem Ordered.dropWhile_self {p : α} : ∀ {xs : List α}, Ordered key xs → p ∈ xs →
    ∃ rest, xs.dropWhile (fun q => decide (key q < key p)) = p :: rest
  | q :: xs, h, hp => by
      rcases List.mem_cons.mp hp with rfl | hp
      · exact ⟨xs, List.dropWhile_cons_of_neg (by simp)⟩
      · have hlt : key q < key p := (cons_iff.mp h).1 p hp
        rw [List.dropWhile_cons_of_pos (by simpa using hlt)]
        exact Ordered.dropWhile_self (cons_iff.mp h).2 hp

/-! ## The set -/

/-- A list in key order. -/
structure OrderedBy {α κ : Type*} [LinearOrder κ] (key : α → κ) where
  elems : List α
  ordered : Ordered key elems

namespace OrderedBy

def empty : OrderedBy key := ⟨[], .nil⟩

def insert (s : OrderedBy key) (p : α) : OrderedBy key :=
  ⟨insertBy key p s.elems, s.ordered.insertBy⟩

theorem elems_injective : Function.Injective (elems : OrderedBy key → List α) := by
  rintro ⟨xs, hxs⟩ ⟨ys, hys⟩ h
  cases h
  rfl

theorem elems_foldl_insert : ∀ (xs : List α) (s : OrderedBy key),
    (xs.foldl insert s).elems = xs.foldl (fun ys p => insertBy key p ys) s.elems
  | [], _ => rfl
  | p :: xs, s => elems_foldl_insert xs (s.insert p)

theorem elems_foldl_insert_empty {xs : List α} (h : Ordered key xs) :
    (xs.foldl insert (empty : OrderedBy key)).elems = xs := by
  rw [elems_foldl_insert]
  have hnil : Ordered key ([] ++ xs) := h
  exact foldl_insertBy hnil

end OrderedBy

end Sylar.Lib
