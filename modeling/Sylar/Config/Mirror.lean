/-
# Sylar.Config.Mirror — what a listener makes of all that a program does.

A listener may keep a state of its own in step with its variable, as the one of the log configuration
does.  What becomes of that state in the course of a program depends on the values that the program
offers to this one variable (`Call.offers`), and of those on the ones that do not compare equal to the
value there is (`arrivals`).  Everything else may happen beside it, as long as nobody else touches this
state and nobody removes the listener (`run_mirrored`).
-/
import Sylar.Config.Process
import Sylar.Lib.Refine

namespace Sylar.Config

open Lib (foldlM_flatMap foldlM_rel)

variable {T : String → Type} {A M R : Type}

/-! ## Values that arrive -/

/-- The values that a variable of the value `val` takes from those it is offered. -/
def arrivals (type : ValueType A) : A → List A → List A
  | _, [] => []
  | val, v :: vs => if type.eq v val then arrivals type val vs else v :: arrivals type v vs

/-- How a listener's own state follows the change of a value; `none` is the end of the process. -/
abbrev Reaction (A M : Type) := A → A → M → Option M

/-- A value that arrives. -/
def arrive (react : Reaction A M) (s : A × M) (v : A) : Option (A × M) :=
  (react s.1 v s.2).map fun m => (v, m)

/-- A value that is offered. -/
def offer (type : ValueType A) (react : Reaction A M) (s : A × M) (v : A) : Option (A × M) :=
  if type.eq v s.1 then some s else arrive react s v

theorem foldlM_offer (type : ValueType A) (react : Reaction A M) (vs : List A) (s : A × M) :
    vs.foldlM (offer type react) s = (arrivals type s.1 vs).foldlM (arrive react) s := by
  induction vs generalizing s with
  | nil => rfl
  | cons v vs ih =>
      rw [List.foldlM_cons, offer, arrivals]
      split
      · exact ih s
      · rw [List.foldlM_cons]
        refine Option.bind_congr ?_
        intro s' hs'
        obtain ⟨m, -, rfl⟩ := Option.map_eq_some_iff.mp hs'
        exact ih (v, m)

/-! ## Listeners -/

/-- The listener keeps its state by `react`. -/
structure Mirrors (react : Reaction A M) (cb : on_change_cb A (M × R)) : Prop where
  some : ∀ old_value new_value s m, react old_value new_value s.1 = some m →
    ∃ r, cb old_value new_value s = .returned (m, r)
  none : ∀ old_value new_value s, react old_value new_value s.1 = none →
    cb old_value new_value s = .crashed

/-- The listener returns and leaves that state alone. -/
def Obliges (cb : on_change_cb A (M × R)) : Prop :=
  ∀ old_value new_value s, ∃ r, cb old_value new_value s = .returned (s.1, r)

/-- The listener returns or throws, and leaves that state alone. -/
def Spares (cb : on_change_cb A (M × R)) : Prop :=
  ∀ old_value new_value s, ∃ r,
    cb old_value new_value s = .returned (s.1, r) ∨ cb old_value new_value s = .threw (s.1, r)

/-- The listener `key` keeps the state, and the others oblige. -/
def Watched (react : Reaction A M) (key : Nat) (cbs : List (Nat × on_change_cb A (M × R))) : Prop :=
  ∃ front cb back, cbs = front ++ (key, cb) :: back ∧ Mirrors react cb ∧
    (∀ i ∈ front, Obliges i.2) ∧ ∀ i ∈ back, Obliges i.2

section Round

variable {react : Reaction A M}
variable {cbs front back : List (Nat × on_change_cb A (M × R))} {cb : on_change_cb A (M × R)} {key : Nat}

theorem notify_obliges {old_value new_value : A} (h : ∀ i ∈ cbs, Obliges i.2)
    (told : List (Nat × A × A)) (s : M × R) :
    ∃ told' r, notify old_value new_value cbs (told, s) = .returned (told', (s.1, r)) := by
  induction cbs generalizing told s with
  | nil => exact ⟨told, s.2, rfl⟩
  | cons i cbs ih =>
      obtain ⟨r, hr⟩ := h i List.mem_cons_self old_value new_value s
      obtain ⟨told', r', hrest⟩ := ih (fun j hj => h j (List.mem_cons_of_mem i hj))
        (told ++ [(i.1, old_value, new_value)]) (s.1, r)
      exact ⟨told', r', notify_cons_returned.mpr ⟨(s.1, r), hr, hrest⟩⟩

theorem notify_spares (old_value new_value : A) (h : ∀ i ∈ cbs, Spares i.2)
    (told : List (Nat × A × A)) (s : M × R) :
    ∃ told' r, notify old_value new_value cbs (told, s) = .returned (told', (s.1, r)) ∨
      notify old_value new_value cbs (told, s) = .threw (told', (s.1, r)) := by
  induction cbs generalizing told s with
  | nil => exact ⟨told, s.2, .inl rfl⟩
  | cons i cbs ih =>
      rw [notify]
      obtain ⟨r, hr | hr⟩ := h i List.mem_cons_self old_value new_value s
      · simp only [hr]
        exact ih (fun j hj => h j (List.mem_cons_of_mem i hj)) _ (s.1, r)
      · simp only [hr]
        exact ⟨_, r, .inr rfl⟩

/-- The round gets through if the listener that keeps the state does. -/
theorem notify_mirrors (old_value new_value : A) (hcb : Mirrors react cb)
    (hfront : ∀ i ∈ front, Obliges i.2) (hback : ∀ i ∈ back, Obliges i.2)
    (told : List (Nat × A × A)) (s : M × R) :
    (react old_value new_value s.1 = none →
      notify old_value new_value (front ++ (key, cb) :: back) (told, s) = .crashed) ∧
    ∀ m, react old_value new_value s.1 = some m → ∃ told' r,
      notify old_value new_value (front ++ (key, cb) :: back) (told, s) = .returned (told', (m, r)) := by
  induction front generalizing told s with
  | nil =>
      rw [List.nil_append, notify]
      constructor
      · intro hnone
        simp only [hcb.none _ _ s hnone]
      · intro m hm
        obtain ⟨r, hr⟩ := hcb.some _ _ s m hm
        simp only [hr]
        exact notify_obliges hback _ (m, r)
  | cons i front ih =>
      obtain ⟨r, hr⟩ := hfront i List.mem_cons_self old_value new_value s
      rw [List.cons_append, notify]
      simp only [hr]
      exact ih (fun j hj => hfront j (List.mem_cons_of_mem i hj)) _ (s.1, r)

end Round

/-! ## One variable -/

namespace ConfigVar

variable {react : Reaction A M} {var : ConfigVar A (M × R)} {key : Nat}

/-- **A value for the variable**: the process ends where the listener's state says so, and otherwise the
value and that state are as they are to be. -/
theorem setValue_watched (type : ValueType A) (h : Watched react key var.m_cbs) (v : A) (s : M × R) :
    (offer type react (var.m_val, s.1) v = none ∧ var.setValue type v s = .crashed) ∨
    ∃ x var' r, offer type react (var.m_val, s.1) v = some x ∧
      var.setValue type v s = .returned (var', (x.2, r)) ∧ var'.m_val = x.1 ∧
      var'.m_cbs = var.m_cbs := by
  obtain ⟨front, cb, back, hcbs, hcb, hfront, hback⟩ := h
  unfold offer
  cases heq : type.eq v var.m_val with
  | true =>
      rw [setValue_eq heq]
      exact .inr ⟨_, var, s.2, rfl, rfl, rfl, rfl⟩
  | false =>
      obtain ⟨hnone, hsome⟩ := notify_mirrors var.m_val v hcb hfront hback var.notified s
      rw [← hcbs] at hnone hsome
      unfold setValue arrive
      rw [heq]
      cases hreact : react var.m_val v s.1 with
      | none => exact .inl ⟨rfl, by simp [hnone hreact]⟩
      | some m =>
          obtain ⟨told', r, hround⟩ := hsome m hreact
          refine .inr ⟨(v, m), { var with m_val := v, notified := told' }, r, rfl, ?_, rfl, rfl⟩
          simp only [hround]
          rfl

/-- A value for another variable. -/
theorem setValue_spares (type : ValueType A) (h : ∀ i ∈ var.m_cbs, Spares i.2) (v : A)
    (s : M × R) :
    ∃ var' s', (var.setValue type v s = .returned (var', s') ∨
      var.setValue type v s = .threw (var', s')) ∧ s'.1 = s.1 := by
  cases heq : type.eq v var.m_val with
  | true =>
      rw [setValue_eq heq]
      exact ⟨var, s, .inl rfl, rfl⟩
  | false =>
      unfold setValue
      rw [heq]
      obtain ⟨told', r, hround | hround⟩ :=
        notify_spares var.m_val v h var.notified s
      · rw [hround]
        exact ⟨_, _, .inl rfl, rfl⟩
      · rw [hround]
        exact ⟨_, _, .inr rfl, rfl⟩

/-- A text for the variable. -/
theorem fromString_watched (type : ValueType A) (h : Watched react key var.m_cbs) (val : String)
    (s : M × R) :
    ((type.fromStr val).toList.foldlM (offer type react) (var.m_val, s.1) = none ∧
      var.fromString type val s = none) ∨
    ∃ x var' r, (type.fromStr val).toList.foldlM (offer type react) (var.m_val, s.1) = some x ∧
      var.fromString type val s = some (false, var', (x.2, r)) ∧ var'.m_val = x.1 ∧
      var'.m_cbs = var.m_cbs := by
  unfold fromString
  cases type.fromStr val with
  | none => exact .inr ⟨_, var, s.2, rfl, rfl, rfl, rfl⟩
  | some v =>
      simp only [Option.toList_some, List.foldlM_cons, List.foldlM_nil, bind_pure]
      obtain ⟨hoffer, hset⟩ | ⟨x, var', r, hoffer, hset, hval, hcbs⟩ :=
        setValue_watched type h v s
      · rw [hset]
        exact .inl ⟨hoffer, rfl⟩
      · rw [hset]
        exact .inr ⟨x, var', r, hoffer, rfl, hval, hcbs⟩

/-- A text for another variable. -/
theorem fromString_spares (type : ValueType A) (h : ∀ i ∈ var.m_cbs, Spares i.2) (val : String)
    (s : M × R) :
    ∃ r, var.fromString type val s = some r ∧ r.2.2.1 = s.1 := by
  unfold fromString
  cases type.fromStr val with
  | none => exact ⟨_, rfl, rfl⟩
  | some v =>
      obtain ⟨var', s', hset | hset, hstate⟩ := setValue_spares type h v s
      · simp only [hset]
        exact ⟨_, rfl, hstate⟩
      · simp only [hset]
        exact ⟨_, rfl, hstate⟩

end ConfigVar

/-! ## All variables -/

/-- The variable `name` has the value and the listeners given, and nobody else touches the state. -/
structure Leads (name : String) (cbs : List (Nat × on_change_cb (T name) (M × R))) (x : T name × M)
    (st : ConfigVarMap T (M × R) × M × R) : Prop where
  registered : ∃ var, st.1 name = some var ∧ var.m_val = x.1 ∧ var.m_cbs = cbs
  state : st.2.1 = x.2
  others : ∀ other var, other ≠ name → st.1 other = some var → ∀ i ∈ var.m_cbs, Spares i.2

section Loop

variable {type : (name : String) → ValueType (T name)} {yaml : Yaml} {name : String}
variable {react : Reaction (T name) M} {key : Nat} {x x' : T name × M}
variable {cbs cbs' : List (Nat × on_change_cb (T name) (M × R))}
variable {st : ConfigVarMap T (M × R) × M × R}

/-- Another variable is written. -/
theorem Leads.put_other (h : Leads name cbs x st) {other : String} (hother : other ≠ name)
    {var : ConfigVar (T other) (M × R)} (hvar : ∀ i ∈ var.m_cbs, Spares i.2) {s : M × R}
    (hs : s.1 = st.2.1) : Leads name cbs x (Function.update st.1 other (some var), s) := by
  refine ⟨?_, hs.trans h.state, ?_⟩
  · obtain ⟨var₀, hvar₀, hval⟩ := h.registered
    refine ⟨var₀, ?_, hval⟩
    rw [← hvar₀]
    exact Function.update_of_ne (Ne.symm hother) _ _
  · intro k var' hk hvar'
    dsimp only at hvar'
    by_cases heq : k = other
    · subst heq
      rw [Function.update_self, Option.some.injEq] at hvar'
      subst hvar'
      exact hvar
    · rw [Function.update_of_ne heq] at hvar'
      exact h.others k var' hk hvar'

/-- The variable itself is written. -/
theorem Leads.put_self (h : Leads name cbs x st) {var : ConfigVar (T name) (M × R)} {s : M × R}
    (hval : var.m_val = x'.1) (hcbs : var.m_cbs = cbs') (hs : s.1 = x'.2) :
    Leads name cbs' x' (Function.update st.1 name (some var), s) := by
  refine ⟨⟨var, Function.update_self .., hval, hcbs⟩, hs, ?_⟩
  intro k var' hk hvar'
  dsimp only at hvar'
  rw [Function.update_of_ne hk] at hvar'
  exact h.others k var' hk hvar'

/-- A round of `LoadFromYaml` and what it offers. -/
theorem Leads.loadNode (hcbs : Watched react key cbs) (hname : name ≠ "") (i : String × Node)
    (h : Leads name cbs x st) : Option.Rel (fun x st => Leads name cbs x st)
      (((textsOf yaml name [i]).filterMap (type name).fromStr).foldlM (offer (type name) react) x)
      (loadNode type yaml st i) := by
  by_cases hi : lowered i.1 = name
  · have hempty : i.1 ≠ "" := by
      intro he
      rw [he] at hi
      exact hname hi.symm
    subst hi
    have htexts : (textsOf yaml (lowered i.1) [i]).filterMap (type (lowered i.1)).fromStr
        = ((type (lowered i.1)).fromStr (nodeText yaml i.2)).toList := by
      cases hconv : (type (lowered i.1)).fromStr (nodeText yaml i.2) <;> simp [textsOf, hconv]
    obtain ⟨var, hvar, hval, rfl⟩ := h.registered
    rw [htexts, Sylar.Config.loadNode, if_neg hempty, hvar]
    obtain ⟨rfl⟩ : x = (var.m_val, st.2.1) := Prod.ext hval.symm h.state.symm
    obtain ⟨hoffer, hrun⟩ | ⟨x', var', r, hoffer, hrun, hval', hcbs'⟩ :=
      ConfigVar.fromString_watched (type (lowered i.1)) hcbs (nodeText yaml i.2) st.2
    · simp only [hrun]
      rw [hoffer]
      exact .none
    · simp only [hrun]
      rw [hoffer]
      exact .some (h.put_self hval' hcbs' rfl)
  · have htexts : textsOf yaml name [i] = [] := by
      simp [textsOf, hi]
    rw [htexts, Sylar.Config.loadNode]
    split
    · exact .some h
    · split
      · exact .some h
      · rename_i other hother
        obtain ⟨r, hr, hs⟩ := ConfigVar.fromString_spares (type (lowered i.1))
          (h.others _ other hi hother) (nodeText yaml i.2) st.2
        rw [hr]
        refine .some (h.put_other hi ?_ hs)
        rw [ConfigVar.fromString_m_cbs hr]
        exact h.others _ other hi hother

/-- The texts for a variable, node by node. -/
theorem textsOf_eq (nodes : List (String × Node)) :
    textsOf yaml name nodes = nodes.flatMap fun i => textsOf yaml name [i] := by
  induction nodes with
  | nil => rfl
  | cons i nodes ih =>
      rw [List.flatMap_cons, ← ih]
      unfold textsOf
      rw [← List.map_append, ← List.filter_append]
      rfl

/-- **One document**, for the variable and the state. -/
theorem Leads.loadFromYaml (type : (name : String) → ValueType (T name)) (yaml : Yaml)
    (hcbs : Watched react key cbs) (hname : name ≠ "") (root : Node)
    (h : Leads name cbs x st) : Option.Rel (fun x st => Leads name cbs x st)
      (((delivered yaml root name).filterMap (type name).fromStr).foldlM (offer (type name) react) x)
      (loadFromYaml type yaml root st) := by
  rw [delivered_eq, textsOf_eq, List.filterMap_flatMap, foldlM_flatMap]
  exact foldlM_rel (fun i _ x st hst => hst.loadNode hcbs hname i) h

end Loop

/-! ## Programs -/

/-- The values that a call offers to a variable. -/
def Call.offers {S : Type} (type : (name : String) → ValueType (T name)) (yaml : Yaml) (name : String) :
    Call T S → List (T name)
  | .setValue name' v => if h : name' = name then [h ▸ v] else []
  | .fromString name' val => if name' = name then ((type name).fromStr val).toList else []
  | .loadFromYaml root => (delivered yaml root name).filterMap (type name).fromStr
  | _ => []

/-- The call leaves the listener `key` of the variable `name` alone, and the state it keeps. -/
def Call.Respects (name : String) (key : Nat) : Call T (M × R) → Prop
  | .addListener name' cb => if name' = name then Obliges cb else Spares cb
  | .delListener name' key' => name' = name → key' ≠ key
  | .clearListener name' => name' ≠ name
  | _ => True

namespace Process

variable {κ : Type}

/-- The listener `key` of the variable `name` keeps the state, and nobody else touches it. -/
structure Mirrored (kind : String → κ) (name : String) (react : Reaction (T name) M) (key : Nat)
    (x : T name × M) (p : Process T κ (M × R)) : Prop where
  exists_cbs : ∃ cbs, Watched react key cbs ∧ (∀ i ∈ cbs, i.1 ≤ p.s_fun_id (kind name)) ∧
    Leads name cbs x (p.datas, p.state)

variable {type : (name : String) → ValueType (T name)} {yaml : Yaml} {kind : String → κ} {name : String}
variable {react : Reaction (T name) M} {key : Nat} {x x' : T name × M} {p : Process T κ (M × R)}

/-- The variable, its listeners and their keys. -/
theorem Mirrored.exists_var (h : Mirrored kind name react key x p) :
    ∃ var, p.datas name = some var ∧ x = (var.m_val, p.state.1) ∧ Watched react key var.m_cbs ∧
      ∀ i ∈ var.m_cbs, i.1 ≤ p.s_fun_id (kind name) := by
  obtain ⟨cbs, hwatched, hbelow, hleads⟩ := h.exists_cbs
  obtain ⟨var, hvar, hval, rfl⟩ := hleads.registered
  exact ⟨var, hvar, Prod.ext hval.symm hleads.state.symm, hwatched, hbelow⟩

/-- Another variable is written. -/
theorem Mirrored.put_other (h : Mirrored kind name react key x p) {other : String}
    (hother : other ≠ name) {var : ConfigVar (T other) (M × R)} (hvar : ∀ i ∈ var.m_cbs, Spares i.2)
    {s : M × R} (hs : s.1 = p.state.1) {s_fun_id : κ → Nat}
    (hcount : p.s_fun_id (kind name) ≤ s_fun_id (kind name)) :
    Mirrored kind name react key x ⟨Function.update p.datas other (some var), s_fun_id, s⟩ := by
  obtain ⟨cbs, hwatched, hbelow, hleads⟩ := h.exists_cbs
  refine ⟨cbs, hwatched, ?_, hleads.put_other hother hvar hs⟩
  intro i hi
  exact (hbelow i hi).trans hcount

/-- The variable itself is written. -/
theorem Mirrored.put_self (h : Mirrored kind name react key x p) {var : ConfigVar (T name) (M × R)}
    {s : M × R} {s_fun_id : κ → Nat} (hval : var.m_val = x'.1) (hs : s.1 = x'.2)
    (hwatched : Watched react key var.m_cbs) (hbelow : ∀ i ∈ var.m_cbs, i.1 ≤ s_fun_id (kind name)) :
    Mirrored kind name react key x' ⟨Function.update p.datas name (some var), s_fun_id, s⟩ := by
  obtain ⟨cbs, -, -, hleads⟩ := h.exists_cbs
  exact ⟨var.m_cbs, hwatched, hbelow, hleads.put_self hval rfl hs⟩

/-- A call on another variable that leaves its listeners sparing. -/
theorem Mirrored.on_other (h : Mirrored kind name react key x p) {other : String}
    (hother : other ≠ name) {call : ConfigVar (T other) (M × R) → Option (Process T κ (M × R))}
    (hcall : ∀ var, (∀ i ∈ var.m_cbs, Spares i.2) → ∃ var' s s_fun_id,
      call var = some ⟨Function.update p.datas other (some var'), s_fun_id, s⟩ ∧
      (∀ i ∈ var'.m_cbs, Spares i.2) ∧ s.1 = p.state.1 ∧
      p.s_fun_id (kind name) ≤ s_fun_id (kind name)) :
    ∃ p', p.on other call = some p' ∧ Mirrored kind name react key x p' := by
  obtain ⟨cbs, -, -, hleads⟩ := h.exists_cbs
  unfold on
  cases hvar : p.datas other with
  | none => exact ⟨p, rfl, h⟩
  | some var =>
      obtain ⟨var', s, s_fun_id, hrun, hvar', hs, hcount⟩ :=
        hcall var (hleads.others other var hother hvar)
      exact ⟨_, hrun, h.put_other hother hvar' hs hcount⟩

/-- A call that offers nothing. -/
theorem Mirrored.rel {q : Option (Process T κ (M × R))}
    (h : ∃ p', q = some p' ∧ Mirrored kind name react key x p') :
    Option.Rel (fun x p => Mirrored kind name react key x p) (some x) q := by
  obtain ⟨p', rfl, hp'⟩ := h
  exact .some hp'

variable [DecidableEq κ]

/-- A new name. -/
theorem Mirrored.lookup (h : Mirrored kind name react key x p) (other : String)
    (default_value : T other) : ∃ p', p.step type yaml kind (.lookup other default_value) = some p' ∧
      Mirrored kind name react key x p' := by
  simp only [Process.step]
  cases hvar : p.datas other with
  | some var =>
      have hlookup : Sylar.Config.lookup p.datas other default_value true
          = some (p.datas, some var) := by
        unfold Sylar.Config.lookup
        rw [hvar]
        rfl
      rw [hlookup]
      exact ⟨_, rfl, h⟩
  | none =>
      rw [lookup_new hvar]
      cases validName other with
      | false => exact ⟨p, rfl, h⟩
      | true =>
          have hother : other ≠ name := by
            rintro rfl
            obtain ⟨var, hvar', -⟩ := h.exists_var
            exact absurd (hvar'.symm.trans hvar) (Option.some_ne_none var)
          refine ⟨_, rfl, h.put_other hother ?_ rfl (Nat.le_refl _)⟩
          exact fun i hi => absurd hi List.not_mem_nil

/-- The counter of a type only goes up. -/
theorem le_update_s_fun_id (s_fun_id : κ → Nat) (k k' : κ) :
    s_fun_id k ≤ Function.update s_fun_id k' (s_fun_id k' + 1) k := by
  by_cases hk : k = k'
  · subst hk
    rw [Function.update_self]
    exact Nat.le_succ _
  · rw [Function.update_of_ne hk]

/-- A new listener. -/
theorem Mirrored.addListener (h : Mirrored kind name react key x p) {other : String}
    {cb : on_change_cb (T other) (M × R)} (hcb : (Call.addListener other cb).Respects name key) :
    ∃ p', p.step type yaml kind (.addListener other cb) = some p' ∧
      Mirrored kind name react key x p' := by
  simp only [Call.Respects] at hcb
  simp only [Process.step]
  by_cases hother : other = name
  · subst hother
    rw [if_pos rfl] at hcb
    obtain ⟨var, hvar, rfl, ⟨front, cb₀, back, hsplit, hcb₀, hfront, hback⟩, hbelow⟩ := h.exists_var
    have hcbs := ConfigVar.addListener_m_cbs cb hbelow
    unfold on
    rw [hvar]
    refine ⟨_, rfl, h.put_self rfl rfl ?_ ?_⟩
    · rw [hcbs, hsplit]
      refine ⟨front, cb₀, back ++ [(p.s_fun_id (kind other) + 1, cb)], by simp, hcb₀, hfront, ?_⟩
      intro i hi
      rcases List.mem_append.mp hi with hi | hi
      · exact hback i hi
      · obtain rfl := List.mem_singleton.mp hi
        exact hcb
    · intro i hi
      rw [hcbs] at hi
      rw [Function.update_self]
      rcases List.mem_append.mp hi with hi | hi
      · exact (hbelow i hi).trans (Nat.le_succ _)
      · obtain rfl := List.mem_singleton.mp hi
        exact Nat.le_refl _
  · rw [if_neg hother] at hcb
    refine h.on_other hother fun var hvar => ⟨_, _, _, rfl, ?_, rfl, le_update_s_fun_id _ _ _⟩
    intro i hi
    rcases List.mem_append.mp hi with hi | hi
    · exact hvar i (List.mem_of_mem_filter hi)
    · rcases List.mem_cons.mp hi with rfl | hi
      · exact hcb
      · exact hvar i (List.mem_of_mem_filter hi)

/-- A listener that is removed. -/
theorem Mirrored.delListener (h : Mirrored kind name react key x p) {other : String} {key' : Nat}
    (hkey : (Call.delListener other key' : Call T (M × R)).Respects name key) :
    ∃ p', p.step type yaml kind (.delListener other key') = some p' ∧
      Mirrored kind name react key x p' := by
  simp only [Process.step]
  by_cases hother : other = name
  · subst hother
    obtain ⟨var, hvar, rfl, ⟨front, cb, back, hsplit, hcb, hfront, hback⟩, hbelow⟩ := h.exists_var
    unfold on
    rw [hvar]
    refine ⟨_, rfl, h.put_self rfl rfl ?_ ?_⟩
    · refine ⟨front.filter fun i => i.1 ≠ key', cb, back.filter fun i => i.1 ≠ key', ?_, hcb, ?_, ?_⟩
      · show var.m_cbs.filter _ = _
        rw [hsplit, List.filter_append, List.filter_cons_of_pos]
        simpa using (hkey rfl).symm
      · exact fun i hi => hfront i (List.mem_of_mem_filter hi)
      · exact fun i hi => hback i (List.mem_of_mem_filter hi)
    · exact fun i hi => hbelow i (List.mem_of_mem_filter hi)
  · refine h.on_other hother fun var hvar => ⟨_, _, _, rfl, ?_, rfl, Nat.le_refl _⟩
    exact fun i hi => hvar i (List.mem_of_mem_filter hi)

/-- All of another variable's listeners are removed. -/
theorem Mirrored.clearListener (h : Mirrored kind name react key x p) {other : String}
    (hother : other ≠ name) : ∃ p', p.step type yaml kind (.clearListener other) = some p' ∧
      Mirrored kind name react key x p' := by
  simp only [Process.step]
  refine h.on_other hother fun var hvar => ⟨_, _, _, rfl, ?_, rfl, Nat.le_refl _⟩
  exact fun i hi => absurd hi List.not_mem_nil

/-- A value that is set. -/
theorem Mirrored.setValue (h : Mirrored kind name react key x p) (other : String) (v : T other) :
    Option.Rel (fun x p => Mirrored kind name react key x p)
      (((Call.setValue other v : Call T (M × R)).offers type yaml name).foldlM (offer (type name) react) x)
      (p.step type yaml kind (.setValue other v)) := by
  simp only [Process.step]
  by_cases hother : other = name
  · subst hother
    obtain ⟨var, hvar, rfl, hwatched, hbelow⟩ := h.exists_var
    have hoffers : (Call.setValue other v : Call T (M × R)).offers type yaml other = [v] := by
      simp [Call.offers]
    unfold on
    rw [hvar, hoffers]
    simp only [List.foldlM_cons, List.foldlM_nil, bind_pure]
    obtain ⟨hoffer, hset⟩ | ⟨x', var', r, hoffer, hset, hval', hcbs'⟩ :=
      ConfigVar.setValue_watched (type other) hwatched v p.state
    · rw [hset, hoffer]
      exact .none
    · rw [hset, hoffer]
      refine .some (h.put_self hval' rfl ?_ ?_)
      · rw [hcbs']
        exact hwatched
      · rw [hcbs']
        exact hbelow
  · have hoffers : (Call.setValue other v : Call T (M × R)).offers type yaml name = [] := by
      simp [Call.offers, hother]
    rw [hoffers]
    refine Mirrored.rel (h.on_other hother fun var hvar => ?_)
    obtain ⟨var', s', hset, hs⟩ := ConfigVar.setValue_spares (type other) hvar v p.state
    have hcbs := ConfigVar.setValue_m_cbs hset
    refine ⟨var', s', p.s_fun_id, ?_, ?_, hs, Nat.le_refl _⟩
    · rcases hset with hset | hset
      · rw [hset]
        rfl
      · rw [hset]
        rfl
    · rw [hcbs]
      exact hvar

/-- A text that is set. -/
theorem Mirrored.fromString (h : Mirrored kind name react key x p) (other val : String) :
    Option.Rel (fun x p => Mirrored kind name react key x p)
      (((Call.fromString other val : Call T (M × R)).offers type yaml name).foldlM
        (offer (type name) react) x)
      (p.step type yaml kind (.fromString other val)) := by
  simp only [Process.step]
  by_cases hother : other = name
  · subst hother
    obtain ⟨var, hvar, rfl, hwatched, hbelow⟩ := h.exists_var
    have hoffers : (Call.fromString other val : Call T (M × R)).offers type yaml other
        = ((type other).fromStr val).toList := if_pos rfl
    unfold on
    rw [hvar, hoffers]
    obtain ⟨hoffer, hrun⟩ | ⟨x', var', r, hoffer, hrun, hval', hcbs'⟩ :=
      ConfigVar.fromString_watched (type other) hwatched val p.state
    · simp only [hrun]
      rw [hoffer]
      exact .none
    · simp only [hrun]
      rw [hoffer]
      refine .some (h.put_self hval' rfl ?_ ?_)
      · rw [hcbs']
        exact hwatched
      · rw [hcbs']
        exact hbelow
  · have hoffers : (Call.fromString other val : Call T (M × R)).offers type yaml name = [] :=
      if_neg hother
    rw [hoffers]
    refine Mirrored.rel (h.on_other hother fun var hvar => ?_)
    obtain ⟨r, hr, hs⟩ := ConfigVar.fromString_spares (type other) hvar val p.state
    refine ⟨r.2.1, r.2.2, p.s_fun_id, by rw [hr]; rfl, ?_, hs, Nat.le_refl _⟩
    rw [ConfigVar.fromString_m_cbs hr]
    exact hvar

/-- A document. -/
theorem Mirrored.loadFromYaml (h : Mirrored kind name react key x p) (hname : name ≠ "") (root : Node) :
    Option.Rel (fun x p => Mirrored kind name react key x p)
      (((Call.loadFromYaml root : Call T (M × R)).offers type yaml name).foldlM
        (offer (type name) react) x)
      (p.step type yaml kind (.loadFromYaml root)) := by
  obtain ⟨cbs, hwatched, hbelow, hleads⟩ := h.exists_cbs
  have hload := hleads.loadFromYaml type yaml hwatched hname root
  simp only [Process.step, Call.offers]
  generalize List.foldlM (offer (type name) react) x _ = y at hload ⊢
  generalize Sylar.Config.loadFromYaml type yaml root (p.datas, p.state) = st at hload ⊢
  cases hload with
  | none => exact .none
  | some h' => exact .some ⟨_, hwatched, hbelow, h'⟩

/-- **One call.** -/
theorem Mirrored.step (hname : name ≠ "") {call : Call T (M × R)} (hcall : call.Respects name key)
    (h : Mirrored kind name react key x p) :
    Option.Rel (fun x p => Mirrored kind name react key x p)
      ((call.offers type yaml name).foldlM (offer (type name) react) x)
      (p.step type yaml kind call) := by
  cases call with
  | lookup other default_value => exact Mirrored.rel (h.lookup other default_value)
  | addListener other cb => exact Mirrored.rel (h.addListener hcall)
  | delListener other key' => exact Mirrored.rel (h.delListener hcall)
  | clearListener other => exact Mirrored.rel (h.clearListener hcall)
  | setValue other v => exact h.setValue other v
  | fromString other val => exact h.fromString other val
  | loadFromYaml root => exact h.loadFromYaml hname root

/-- A variable that is registered with a listener that keeps the state. -/
theorem Mirrored.start (type : (name : String) → ValueType (T name)) (yaml : Yaml) (kind : String → κ)
    (hname : validName name = true) {cb : on_change_cb (T name) (M × R)}
    (hcb : Mirrors react cb) (default_value : T name) (hnew : p.datas name = none)
    (hothers : ∀ other var, p.datas other = some var → ∀ i ∈ var.m_cbs, Spares i.2) :
    ∃ p', p.run type yaml kind [.lookup name default_value, .addListener name cb] = some p' ∧
      Mirrored kind name react (p.s_fun_id (kind name) + 1) (default_value, p.state.1) p' := by
  let var : ConfigVar (T name) (M × R) := { m_val := default_value, m_cbs := [] }
  have hlookup : p.step type yaml kind (.lookup name default_value) = some (p.put name var) := by
    simp only [Process.step]
    rw [lookup_new hnew, if_pos hname]
    rfl
  let p' : Process T κ (M × R) :=
    { (p.put name var).put name (var.addListener cb (p.s_fun_id (kind name))).2 with
      s_fun_id := Function.update p.s_fun_id (kind name) (p.s_fun_id (kind name) + 1) }
  have hadd : (p.put name var).step type yaml kind (.addListener name cb) = some p' := by
    have hvar : (p.put name var).datas name = some var := Function.update_self ..
    simp only [Process.step, on]
    rw [hvar]
    rfl
  have hrun : p.run type yaml kind [.lookup name default_value, .addListener name cb] = some p' := by
    unfold run
    rw [List.foldlM_cons, hlookup]
    show [Call.addListener name cb].foldlM (Process.step type yaml kind) (p.put name var) = some p'
    rw [List.foldlM_cons, hadd]
    rfl
  refine ⟨p', hrun, [(p.s_fun_id (kind name) + 1, cb)], ⟨[], cb, [], rfl, hcb, ?_, ?_⟩, ?_, ?_, rfl, ?_⟩
  · exact fun i hi => absurd hi List.not_mem_nil
  · exact fun i hi => absurd hi List.not_mem_nil
  · intro i hi
    obtain rfl := List.mem_singleton.mp hi
    exact (Function.update_self (kind name) _ p.s_fun_id).ge
  · exact ⟨_, Function.update_self .., rfl, rfl⟩
  · intro other var' hother hvar'
    refine hothers other var' ?_
    have hvar' : Function.update (Function.update p.datas name _) name _ other = some var' := hvar'
    rwa [Function.update_of_ne hother, Function.update_of_ne hother] at hvar'

/-- **Whatever a program does**, the listener's state is what the values make of it that arrive. -/
theorem run_mirrored (type : (name : String) → ValueType (T name)) (yaml : Yaml) (hname : name ≠ "")
    (h : Mirrored kind name react key x p)
    {calls : List (Call T (M × R))} (hcalls : ∀ call ∈ calls, call.Respects name key) :
    Option.Rel (fun x p => Mirrored kind name react key x p)
      ((arrivals (type name) x.1 (calls.flatMap (Call.offers type yaml name))).foldlM (arrive react) x)
      (p.run type yaml kind calls) := by
  rw [← foldlM_offer, foldlM_flatMap]
  exact foldlM_rel (fun call hcall x p hp => hp.step hname (hcalls call hcall)) h

end Process

end Sylar.Config
