/-
# Sylar.Lib.HashSet — a set kept as a list in any order.

An unordered container is the list of its elements as an iteration meets them, no two with one key.
`insertAny` is its `insert`: an element with the key of one that is there is kept out, and after an
insertion the elements stand as the buckets have it (`Buckets.arrange`; a rehash moves them all).
Nothing here depends on how that is.
-/
import Mathlib.Data.List.Forall2
import Mathlib.Data.List.Nodup

namespace Sylar.Lib

/-- How the elements of an unordered container stand after an insertion. -/
structure Buckets where
  arrange : (α : Type) → List α → List α
  perm : ∀ {α : Type} (xs : List α), (arrange α xs).Perm xs

variable {α β κ : Type} {key : α → κ}

/-- No two elements have one key. -/
def Distinct (key : α → κ) (xs : List α) : Prop := (xs.map key).Nodup

theorem Distinct.perm {xs ys : List α} (h : Distinct key xs) (hp : ys.Perm xs) :
    Distinct key ys := (hp.map key).nodup_iff.mpr h

/-- An element in the middle has a key that none in front of it has. -/
theorem Distinct.notMem_front {p : α} {xs ys : List α} (h : Distinct key (ys ++ p :: xs)) :
    key p ∉ ys.map key := by
  have hcons : Distinct key (p :: (ys ++ xs)) := h.perm List.perm_middle.symm
  intro hmem
  apply (List.nodup_cons.mp hcons).1
  rw [List.map_append]
  exact List.mem_append_left _ hmem

section Insertion

variable [DecidableEq κ] (buckets : Buckets)

/-- Insert `p`; an element with the same key keeps it out. -/
def insertAny (key : α → κ) (p : α) (xs : List α) : List α :=
  if key p ∈ xs.map key then xs else buckets.arrange α (p :: xs)

/-- Where nothing equivalent is in the way, `p` gets in. -/
theorem perm_insertAny {p : α} {xs : List α} (h : key p ∉ xs.map key) :
    (insertAny buckets key p xs).Perm (p :: xs) := by
  rw [insertAny, if_neg h]
  exact buckets.perm (p :: xs)

theorem Distinct.insertAny {p : α} {xs : List α} (h : Distinct key xs) :
    Distinct key (insertAny buckets key p xs) := by
  by_cases hp : key p ∈ xs.map key
  · rw [Lib.insertAny, if_pos hp]
    exact h
  · have hcons : Distinct key (p :: xs) := List.nodup_cons.mpr ⟨hp, h⟩
    exact hcons.perm (perm_insertAny buckets hp)

/-- What is inserted one by one is all there, if no two have one key. -/
theorem perm_foldl_insertAny : ∀ {xs ys : List α}, Distinct key (ys ++ xs) →
    (xs.foldl (fun s p => insertAny buckets key p s) ys).Perm (ys ++ xs)
  | [], ys, _ => by
      rw [List.append_nil]
      exact List.Perm.refl ys
  | p :: xs, ys, h => by
      have hinsert : (insertAny buckets key p ys ++ xs).Perm (ys ++ p :: xs) :=
        ((perm_insertAny buckets h.notMem_front).append_right xs).trans List.perm_middle.symm
      exact (perm_foldl_insertAny (h.perm hinsert)).trans hinsert

end Insertion

/-! ## The set -/

/-- A list of elements of different keys. -/
structure DistinctBy (key : α → κ) where
  elems : List α
  distinct : Distinct key elems

namespace DistinctBy

variable [DecidableEq κ] (buckets : Buckets)

def empty : DistinctBy key := ⟨[], List.nodup_nil⟩

def insert (s : DistinctBy key) (p : α) : DistinctBy key :=
  ⟨insertAny buckets key p s.elems, s.distinct.insertAny buckets⟩

theorem elems_foldl_insert : ∀ (xs : List α) (s : DistinctBy key),
    (xs.foldl (insert buckets) s).elems
      = xs.foldl (fun ys p => insertAny buckets key p ys) s.elems
  | [], _ => rfl
  | p :: xs, s => elems_foldl_insert xs (s.insert buckets p)

theorem perm_foldl_insert_empty {xs : List α} (h : Distinct key xs) :
    (xs.foldl (insert buckets) (empty : DistinctBy key)).elems.Perm xs := by
  rw [elems_foldl_insert]
  have hnil : Distinct key ([] ++ xs) := h
  exact perm_foldl_insertAny buckets hnil

end DistinctBy

/-! ## Comparison -/

/-- As many elements, and each is found in the other up to `r`. -/
def SameElems (r : α → β → Prop) (xs : List α) (ys : List β) : Prop :=
  xs.length = ys.length ∧ ∀ x ∈ xs, ∃ y ∈ ys, r x y

/-- Two lists that agree place by place have the same elements, in whatever order one is put. -/
theorem SameElems.of_perm {r : α → β → Prop} {xs zs : List α} {ys : List β} (hp : xs.Perm zs)
    (h : List.Forall₂ r zs ys) : SameElems r xs ys := by
  refine ⟨hp.length_eq.trans h.length_eq, ?_⟩
  intro x hx
  have hz : x ∈ zs := hp.mem_iff.mp hx
  clear hx hp
  induction h with
  | nil => exact absurd hz List.not_mem_nil
  | @cons z y zs ys hzy _ ih =>
      rcases List.mem_cons.mp hz with rfl | hz
      · exact ⟨y, List.mem_cons_self, hzy⟩
      · obtain ⟨y', hy', hr⟩ := ih hz
        exact ⟨y', List.mem_cons_of_mem y hy', hr⟩

end Sylar.Lib
