/-
# Sylar.Config.ConfigVar — one configuration variable (`ConfigVar` in `sylar/config.h`).

`setValue` compares, calls the listeners one after the other and then stores; `fromString` converts
first and swallows what is thrown on the way.  A listener is any code, over a state of its own, that
returns, throws a `std::exception`, or takes the process with it (`Outcome`).

`notified` is not in the source.  It is the list of the calls that were made to the listeners, and the
statements are about it.

`fromString` has one `return` behind its `try`, and that says `false`; and the listeners are called
before the store.  So its answer is right, and what it leaves is all or nothing, where the conversion
fails and nowhere else (`all_or_nothing_iff`).
-/
import Mathlib.Data.List.Basic

namespace Sylar.Config

/-- How a call ends. -/
inductive Outcome (σ : Type)
  | returned (s : σ)
  | threw (s : σ)
  | crashed

/-- What `ConfigVar<T>` asks of `T`: `operator==` and `FromStr`, where `none` is an exception. -/
structure ValueType (T : Type) where
  eq : T → T → Bool
  fromStr : String → Option T

/-- `ConfigVar<T>::on_change_cb`. -/
abbrev on_change_cb (T S : Type) := T → T → S → Outcome S

/-- `ConfigVar<T>`, with the calls of its listeners so far: the key, `old_value` and `new_value`. -/
structure ConfigVar (T S : Type) where
  m_val : T
  m_cbs : List (Nat × on_change_cb T S)
  notified : List (Nat × T × T) := []

variable {T S : Type}

/-- The loop over `m_cbs`. -/
def notify (old_value new_value : T) :
    List (Nat × on_change_cb T S) → List (Nat × T × T) × S → Outcome (List (Nat × T × T) × S)
  | [], s => .returned s
  | i :: cbs, s =>
      let told := s.1 ++ [(i.1, old_value, new_value)]
      -- what is thrown leaves the loop, and `setValue`
      match i.2 old_value new_value s.2 with
      | .returned r => notify old_value new_value cbs (told, r)
      | .threw r => .threw (told, r)
      | .crashed => .crashed

namespace ConfigVar

/-- `ConfigVar::setValue`. -/
def setValue (type : ValueType T) (v : T) (var : ConfigVar T S) (s : S) :
    Outcome (ConfigVar T S × S) :=
  if type.eq v var.m_val then .returned (var, s)
  else
    match notify var.m_val v var.m_cbs (var.notified, s) with
    | .returned r => .returned ({ var with m_val := v, notified := r.1 }, r.2)
    | .threw r => .threw ({ var with notified := r.1 }, r.2)
    | .crashed => .crashed

/-- `ConfigVar::fromString`, with the Boolean it returns; `none` is a crash. -/
def fromString (type : ValueType T) (val : String) (var : ConfigVar T S) (s : S) :
    Option (Bool × ConfigVar T S × S) :=
  match type.fromStr val with
  | none => some (false, var, s)
  | some v =>
      match var.setValue type v s with
      | .returned r => some (false, r)
      | .threw r => some (false, r)
      | .crashed => none

/-- No listener ends the process. -/
def Survives (var : ConfigVar T S) : Prop :=
  ∀ i ∈ var.m_cbs, ∀ old_value new_value s, i.2 old_value new_value s ≠ .crashed

/-- Every listener returns. -/
def Returns (var : ConfigVar T S) : Prop :=
  ∀ i ∈ var.m_cbs, ∀ old_value new_value s, ∃ r, i.2 old_value new_value s = .returned r

end ConfigVar

/-! ## The calls of the listeners -/

/-- The calls of a round that gets through. -/
def calls (cbs : List (Nat × on_change_cb T S)) (old_value new_value : T) : List (Nat × T × T) :=
  cbs.map fun i => (i.1, old_value, new_value)

variable {old_value new_value : T} {cbs : List (Nat × on_change_cb T S)}

/-- A round gets through where the first listener returns and the rest of the round gets through. -/
theorem notify_cons_returned {i : Nat × on_change_cb T S} {s r : List (Nat × T × T) × S} :
    notify old_value new_value (i :: cbs) s = .returned r ↔
      ∃ t, i.2 old_value new_value s.2 = .returned t ∧
        notify old_value new_value cbs (s.1 ++ [(i.1, old_value, new_value)], t) = .returned r := by
  rw [notify]
  cases i.2 old_value new_value s.2 <;> simp

/-- A round that gets through has called everyone. -/
theorem notify_returned {s r : List (Nat × T × T) × S}
    (h : notify old_value new_value cbs s = .returned r) :
    r.1 = s.1 ++ calls cbs old_value new_value := by
  induction cbs generalizing s with
  | nil =>
      cases h
      exact (List.append_nil _).symm
  | cons i cbs ih =>
      obtain ⟨t, -, hrest⟩ := notify_cons_returned.mp h
      have hcalls := ih hrest
      rw [hcalls, List.append_assoc]
      rfl

/-- ... and everyone has returned. -/
theorem exists_returned_of_notify {s r : List (Nat × T × T) × S}
    (h : notify old_value new_value cbs s = .returned r) :
    ∀ i ∈ cbs, ∃ t t', i.2 old_value new_value t = .returned t' := by
  induction cbs generalizing s with
  | nil =>
      intro i hi
      exact absurd hi List.not_mem_nil
  | cons i cbs ih =>
      obtain ⟨t, hcall, hrest⟩ := notify_cons_returned.mp h
      intro j hj
      rcases List.mem_cons.mp hj with rfl | hj
      · exact ⟨s.2, t, hcall⟩
      · exact ih hrest j hj

/-- It gets through if everyone returns. -/
theorem exists_notify_returned
    (h : ∀ i ∈ cbs, ∀ s, ∃ r, i.2 old_value new_value s = .returned r)
    (s : List (Nat × T × T) × S) : ∃ r, notify old_value new_value cbs s = .returned r := by
  induction cbs generalizing s with
  | nil => exact ⟨s, rfl⟩
  | cons i cbs ih =>
      obtain ⟨t, ht⟩ := h i List.mem_cons_self s.2
      obtain ⟨r, hr⟩ := ih (fun j hj => h j (List.mem_cons_of_mem i hj))
        (s.1 ++ [(i.1, old_value, new_value)], t)
      exact ⟨r, notify_cons_returned.mpr ⟨t, ht, hr⟩⟩

theorem notify_ne_crashed
    (h : ∀ i ∈ cbs, ∀ s, i.2 old_value new_value s ≠ .crashed)
    (s : List (Nat × T × T) × S) : notify old_value new_value cbs s ≠ .crashed := by
  induction cbs generalizing s with
  | nil => nofun
  | cons i cbs ih =>
      unfold notify
      cases hcall : i.2 old_value new_value s.2 with
      | returned t => exact ih (fun j hj => h j (List.mem_cons_of_mem i hj)) _
      | threw t => nofun
      | crashed => exact absurd hcall (h i List.mem_cons_self s.2)

/-! ## What a call leaves -/

namespace ConfigVar

variable {type : ValueType T} {var : ConfigVar T S}

/-- A value that compares equal is dropped. -/
theorem setValue_eq {v : T} (h : type.eq v var.m_val = true) (s : S) :
    var.setValue type v s = .returned (var, s) := if_pos h

/-- A value that gets through has been told to every listener, and is stored. -/
theorem setValue_returned {v : T} {s s' : S} {var' : ConfigVar T S}
    (hne : type.eq v var.m_val = false) (h : var.setValue type v s = .returned (var', s')) :
    (∃ r, notify var.m_val v var.m_cbs (var.notified, s) = .returned r) ∧ var'.m_val = v ∧
      var'.notified = var.notified ++ calls var.m_cbs var.m_val v := by
  unfold setValue at h
  rw [hne] at h
  cases hround : notify var.m_val v var.m_cbs (var.notified, s) with
  | returned r =>
      rw [hround] at h
      cases h
      exact ⟨⟨r, rfl⟩, rfl, notify_returned hround⟩
  | threw r => rw [hround] at h; cases h
  | crashed => rw [hround] at h; cases h

theorem exists_setValue_returned {v : T} {s : S}
    (h : ∀ i ∈ var.m_cbs, ∀ s, ∃ r, i.2 var.m_val v s = .returned r) :
    ∃ r, var.setValue type v s = .returned r := by
  unfold setValue
  split
  · exact ⟨_, rfl⟩
  · obtain ⟨r, hr⟩ := exists_notify_returned h (var.notified, s)
    rw [hr]
    exact ⟨_, rfl⟩

theorem Survives.setValue_ne_crashed (h : var.Survives) (v : T) (s : S) :
    var.setValue type v s ≠ .crashed := by
  unfold setValue
  split
  · nofun
  · cases hround : notify var.m_val v var.m_cbs (var.notified, s) with
    | returned r => nofun
    | threw r => nofun
    | crashed =>
        exact absurd hround (notify_ne_crashed (fun i hi => h i hi var.m_val v) (var.notified, s))

/-- No call changes the listeners. -/
theorem setValue_m_cbs {v : T} {s s' : S} {var' : ConfigVar T S}
    (h : var.setValue type v s = .returned (var', s') ∨ var.setValue type v s = .threw (var', s')) :
    var'.m_cbs = var.m_cbs := by
  unfold setValue at h
  split at h
  · rcases h with h | h <;> cases h
    rfl
  · cases hround : notify var.m_val v var.m_cbs (var.notified, s) <;> rw [hround] at h <;>
      rcases h with h | h <;> cases h <;> rfl

theorem fromString_m_cbs {val : String} {s : S} {r : Bool × ConfigVar T S × S}
    (h : var.fromString type val s = some r) : r.2.1.m_cbs = var.m_cbs := by
  unfold fromString at h
  split at h
  · cases h
    rfl
  · split at h
    · rename_i hset
      cases h
      exact setValue_m_cbs (.inl hset)
    · rename_i hset
      cases h
      exact setValue_m_cbs (.inr hset)
    · cases h

theorem Survives.exists_fromString (h : var.Survives) (val : String) (s : S) :
    ∃ r, var.fromString type val s = some r := by
  unfold fromString
  split
  · exact ⟨_, rfl⟩
  · split
    · exact ⟨_, rfl⟩
    · exact ⟨_, rfl⟩
    · rename_i hset
      exact absurd hset (h.setValue_ne_crashed _ s)

end ConfigVar

/-- The value a text leads to: the one there is, where the conversion fails. -/
def ValueType.take (type : ValueType T) (val : T) (text : String) : T :=
  match type.fromStr text with
  | none => val
  | some v => if type.eq v val then val else v

theorem ConfigVar.Returns.fromString_m_val {type : ValueType T} {var : ConfigVar T S}
    (h : var.Returns) {val : String} {s : S} {r : Bool × ConfigVar T S × S}
    (hrun : var.fromString type val s = some r) : r.2.1.m_val = type.take var.m_val val := by
  unfold fromString at hrun
  unfold ValueType.take
  cases hconv : type.fromStr val with
  | none =>
      rw [hconv] at hrun
      cases hrun
      rfl
  | some v =>
      have hreturns : ∃ r, var.setValue type v s = .returned r :=
        ConfigVar.exists_setValue_returned fun i hi => h i hi var.m_val v
      obtain ⟨⟨var', s'⟩, hset⟩ := hreturns
      rw [hconv] at hrun
      simp only [hset] at hrun
      cases hrun
      cases heq : type.eq v var.m_val with
      | true =>
          rw [setValue_eq heq] at hset
          cases hset
          simp [heq]
      | false => simp [heq, (setValue_returned heq hset).2.1]

/-! ## All or nothing -/

/-- A round that is cut short has called everyone up to the listener that threw. -/
theorem notify_threw {s r : List (Nat × T × T) × S}
    (h : notify old_value new_value cbs s = .threw r) :
    ∃ front i back, cbs = front ++ i :: back ∧
      r.1 = s.1 ++ calls (front ++ [i]) old_value new_value := by
  induction cbs generalizing s with
  | nil => cases h
  | cons i cbs ih =>
      unfold notify at h
      cases hcall : i.2 old_value new_value s.2 with
      | returned t =>
          simp only [hcall] at h
          obtain ⟨front, j, back, rfl, hr⟩ := ih h
          refine ⟨i :: front, j, back, rfl, ?_⟩
          rw [hr, List.append_assoc]
          rfl
      | threw t =>
          simp only [hcall] at h
          cases h
          exact ⟨[], i, cbs, rfl, rfl⟩
      | crashed =>
          simp only [hcall] at h
          cases h

namespace ConfigVar

/-- A value that is not stored for an exception has been told to somebody. -/
theorem setValue_threw {type : ValueType T} {var var' : ConfigVar T S} {v : T} {s s' : S}
    (h : var.setValue type v s = .threw (var', s')) :
    var'.m_val = var.m_val ∧ var'.notified ≠ var.notified := by
  unfold setValue at h
  split at h
  · cases h
  · cases hround : notify var.m_val v var.m_cbs (var.notified, s) with
    | returned r => rw [hround] at h; cases h
    | crashed => rw [hround] at h; cases h
    | threw r =>
        rw [hround] at h
        cases h
        obtain ⟨front, i, back, -, hr⟩ := notify_threw hround
        refine ⟨rfl, ?_⟩
        show r.1 ≠ var.notified
        rw [hr]
        simp [calls]

/-- The value of the text is in the variable, and if it is a new one everybody knows. -/
def Took (type : ValueType T) (val : String) (var var' : ConfigVar T S) : Prop :=
  ∃ v, type.fromStr val = some v ∧ (var'.m_val = v ∨ type.eq v var'.m_val = true) ∧
    (type.eq v var.m_val = false →
      var'.notified = var.notified ++ calls var.m_cbs var.m_val v)

/-- `fromString` comes back, with the answer `true` exactly if it took the value, and otherwise without
having stored or told anything. -/
def AllOrNothing (type : ValueType T) (val : String) (var : ConfigVar T S) (s : S) : Prop :=
  ∃ rt var' s', var.fromString type val s = some (rt, var', s') ∧
    (rt = true ↔ Took type val var var') ∧
    (rt = false → var'.m_val = var.m_val ∧ var'.notified = var.notified)

/-- The answer is `false`. -/
theorem fromString_false {type : ValueType T} {val : String} {var : ConfigVar T S} {s : S}
    {r : Bool × ConfigVar T S × S} (h : var.fromString type val s = some r) : r.1 = false := by
  unfold fromString at h
  split at h
  · cases h
    rfl
  · split at h
    · cases h
      rfl
    · cases h
      rfl
    · cases h

/-- **`all_or_nothing_iff`** — whatever the type, the text and the listeners, setting a variable from a
text is all or nothing, and says so, exactly where the conversion throws. -/
theorem all_or_nothing_iff (type : ValueType T) (val : String) (var : ConfigVar T S) (s : S) :
    AllOrNothing type val var s ↔ type.fromStr val = none := by
  constructor
  · rintro ⟨rt, var', s', hrun, htook, hnothing⟩
    obtain rfl : rt = false := fromString_false hrun
    have hnot : ¬ Took type val var var' := fun ht => by simpa using htook.mpr ht
    obtain ⟨hval, htold⟩ := hnothing rfl
    cases hconv : type.fromStr val with
    | none => rfl
    | some v =>
        unfold fromString at hrun
        simp only [hconv] at hrun
        cases hset : var.setValue type v s with
        | crashed => rw [hset] at hrun; cases hrun
        | threw r =>
            -- the listener that threw has been told
            rw [hset] at hrun
            cases hrun
            exact absurd htold (setValue_threw hset).2
        | returned r =>
            rw [hset] at hrun
            cases hrun
            refine absurd ⟨v, hconv, ?_, ?_⟩ hnot
            · cases heq : type.eq v var.m_val with
              | true =>
                  rw [setValue_eq heq] at hset
                  cases hset
                  exact .inr heq
              | false => exact .inl (setValue_returned heq hset).2.1
            · intro heq
              exact (setValue_returned heq hset).2.2
  · intro hconv
    refine ⟨false, var, s, by simp only [fromString, hconv], ?_, fun _ => ⟨rfl, rfl⟩⟩
    refine iff_of_false (by simp) ?_
    rintro ⟨v, hv, -⟩
    rw [hconv] at hv
    cases hv

/-- A variable of 1 is set to "2": it is 2 then, and the answer is that it is not. -/
theorem fromString_denies : ¬ ∀ (type : ValueType Int) (val : String) (var : ConfigVar Int Unit),
    AllOrNothing type val var () := by
  intro h
  let type : ValueType Int := ⟨fun x y => x == y, fun text => if text = "2" then some 2 else none⟩
  have hrun : fromString type "2" (⟨1, [], []⟩ : ConfigVar Int Unit) ()
      = some (false, ⟨2, [], []⟩, ()) := rfl
  obtain ⟨rt, var', s', hrun', -, hnothing⟩ := h type "2" ⟨1, [], []⟩
  rw [hrun] at hrun'
  cases hrun'
  exact absurd (hnothing rfl).1 (by decide)

end ConfigVar

end Sylar.Config
