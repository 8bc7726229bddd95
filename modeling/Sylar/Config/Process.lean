/-
# Sylar.Config.Process — what a program does with its variables (`sylar/config.{h,cc}`).

A program registers variables, adds and removes listeners, sets values, and loads documents, in any
order.  `addListener` numbers the listeners of one type of variable, whichever variable they are added
to: its counter is a `static` of the member function.  It counts in 64 bits, and here in `Nat`.

A call on a variable that is not registered cannot be made, and does nothing.
-/
import Sylar.Config.Lookup

namespace Sylar.Config

/-! ## Listeners -/

namespace ConfigVar

variable {T S : Type}

/-- `m_cbs[key] = cb`, in the order of the keys. -/
def setListener (key : Nat) (cb : on_change_cb T S) (cbs : List (Nat × on_change_cb T S)) :
    List (Nat × on_change_cb T S) :=
  cbs.filter (fun i => i.1 < key) ++ (key, cb) :: cbs.filter (fun i => key < i.1)

/-- `ConfigVar::addListener`; the key it returns is what `s_fun_id` is then. -/
def addListener (cb : on_change_cb T S) (s_fun_id : Nat) (var : ConfigVar T S) : Nat × ConfigVar T S :=
  (s_fun_id + 1, { var with m_cbs := setListener (s_fun_id + 1) cb var.m_cbs })

/-- `ConfigVar::delListener`. -/
def delListener (key : Nat) (var : ConfigVar T S) : ConfigVar T S :=
  { var with m_cbs := var.m_cbs.filter fun i => i.1 ≠ key }

/-- `ConfigVar::getListener`. -/
def getListener (key : Nat) (var : ConfigVar T S) : Option (on_change_cb T S) :=
  (var.m_cbs.find? fun i => i.1 = key).map Prod.snd

/-- `ConfigVar::clearListener`. -/
def clearListener (var : ConfigVar T S) : ConfigVar T S := { var with m_cbs := [] }

variable {var : ConfigVar T S} {cb : on_change_cb T S} {s_fun_id key : Nat}

/-- A new listener comes behind those there are. -/
theorem addListener_m_cbs (cb : on_change_cb T S) (h : ∀ i ∈ var.m_cbs, i.1 ≤ s_fun_id) :
    (var.addListener cb s_fun_id).2.m_cbs = var.m_cbs ++ [(s_fun_id + 1, cb)] := by
  unfold addListener setListener
  dsimp only
  rw [List.filter_eq_self.mpr, List.filter_eq_nil_iff.mpr]
  · intro i hi
    have := h i hi
    simp only [decide_eq_true_eq]
    omega
  · intro i hi
    have := h i hi
    simp only [decide_eq_true_eq]
    omega

/-- ... and is found by its key. -/
theorem getListener_addListener (h : ∀ i ∈ var.m_cbs, i.1 ≤ s_fun_id) :
    (var.addListener cb s_fun_id).2.getListener (var.addListener cb s_fun_id).1 = some cb := by
  unfold getListener
  rw [addListener_m_cbs cb h, List.find?_append]
  have hnone : (var.m_cbs.find? fun i => i.1 = s_fun_id + 1) = none := by
    rw [List.find?_eq_none]
    intro i hi
    have := h i hi
    simp only [decide_eq_true_eq]
    omega
  show Option.map _ ((var.m_cbs.find? fun i => i.1 = s_fun_id + 1).or _) = _
  rw [hnone]
  simp [addListener]

/-- A listener that was removed is not found, and the others are. -/
theorem getListener_delListener (k : Nat) :
    (var.delListener key).getListener k = if k = key then none else var.getListener k := by
  unfold getListener delListener
  rw [List.find?_filter]
  split
  · rename_i hk
    subst hk
    rw [List.find?_eq_none.mpr]
    · rfl
    · intro i _
      simp
  · rename_i hk
    congr 2
    funext i
    by_cases hi : i.1 = k
    · simp [hi, hk]
    · simp [hi]

end ConfigVar

/-! ## Programs -/

/-- The registered variables, the counters of their types, and what their listeners keep. -/
structure Process (T : String → Type) (κ S : Type) where
  datas : ConfigVarMap T S
  s_fun_id : κ → Nat
  state : S

/-- What a program can do. -/
inductive Call (T : String → Type) (S : Type)
  | lookup (name : String) (default_value : T name)
  | addListener (name : String) (cb : on_change_cb (T name) S)
  | delListener (name : String) (key : Nat)
  | clearListener (name : String)
  | setValue (name : String) (v : T name)
  | fromString (name val : String)
  | loadFromYaml (root : Node)

namespace Process

variable {T : String → Type} {κ S : Type}

/-- The variable of the name is now `var`. -/
def put (p : Process T κ S) (name : String) (var : ConfigVar (T name) S) : Process T κ S :=
  { p with datas := Function.update p.datas name (some var) }

/-- A call on a variable, where it is registered. -/
def on (p : Process T κ S) (name : String)
    (call : ConfigVar (T name) S → Option (Process T κ S)) : Option (Process T κ S) :=
  match p.datas name with
  | some var => call var
  | none => some p

section Step

variable [DecidableEq κ] (type : (name : String) → ValueType (T name)) (yaml : Yaml)
  (kind : String → κ)

/-- One call; `none` is the end of the process. -/
def step (p : Process T κ S) : Call T S → Option (Process T κ S)
  | .lookup name default_value =>
      match lookup p.datas name default_value true with
      | some r => some { p with datas := r.1 }
      -- the name is not valid, and the caller gets an exception
      | none => some p
  | .addListener name cb =>
      p.on name fun var =>
        let r := var.addListener cb (p.s_fun_id (kind name))
        some { p.put name r.2 with s_fun_id := Function.update p.s_fun_id (kind name) r.1 }
  | .delListener name key => p.on name fun var => some (p.put name (var.delListener key))
  | .clearListener name => p.on name fun var => some (p.put name var.clearListener)
  | .setValue name v =>
      p.on name fun var =>
        match var.setValue (type name) v p.state with
        | .returned r => some { p.put name r.1 with state := r.2 }
        -- what a listener throws goes to the caller
        | .threw r => some { p.put name r.1 with state := r.2 }
        | .crashed => none
  | .fromString name val =>
      p.on name fun var =>
        (var.fromString (type name) val p.state).map fun r => { p.put name r.2.1 with state := r.2.2 }
  | .loadFromYaml root =>
      (loadFromYaml type yaml root (p.datas, p.state)).map fun st =>
        { p with datas := st.1, state := st.2 }

/-- A program. -/
def run (calls : List (Call T S)) (p : Process T κ S) : Option (Process T κ S) :=
  calls.foldlM (step type yaml kind) p

end Step

end Process

end Sylar.Config
