/-
# Sylar.Config.Load — `LoadFromYaml` (`sylar/config.cc`).

`ListAllMember` walks over a tree and gives each node the keys that lead to it, joined with dots; a path
with a character outside its alphabet ends the walk there.  As every path contains the paths above it,
what is listed is what a walk over the whole tree lists, without the paths that are not valid
(`listAllMember_eq`).
-/
import Sylar.Config.Yaml
import Sylar.Config.ConfigVar
import Mathlib.Logic.Function.Basic

namespace Sylar.Config

/-! ## The nodes of a tree -/

/-- `find_first_not_of(..) == npos`. -/
def validPath (path : String) : Bool :=
  path.toList.all fun c => "abcdefghikjlmnopqrstuvwxyz._012345678".toList.contains c

/-- The path of a key below `pre`. -/
def joinKey (pre key : String) : String := if pre = "" then key else pre ++ "." ++ key

mutual

/-- `ListAllMember`. -/
def listAllMember (pre : String) : Node → List (String × Node)
  | .map entries =>
      if validPath pre then (pre, .map entries) :: listEntries pre entries else []
  | n => if validPath pre then [(pre, n)] else []

/-- Its loop. -/
def listEntries (pre : String) : List (String × Node) → List (String × Node)
  | [] => []
  | (key, n) :: entries => listAllMember (joinKey pre key) n ++ listEntries pre entries

end

mutual

/-- All nodes of a tree in pre-order, with the keys that lead to them. -/
def walk : Node → List (List String × Node)
  | .map entries => ([], .map entries) :: walkEntries entries
  | n => [([], n)]

def walkEntries : List (String × Node) → List (List String × Node)
  | [] => []
  | (key, n) :: entries => (walk n).map (fun x => (key :: x.1, x.2)) ++ walkEntries entries

end

example : (listAllMember "" (.map [("a", .map [("b", .scalar "1"), ("B", .scalar "2")])])).map Prod.fst
    = ["", "a", "a.b"] := by decide

/-- The path of a node: its keys joined with dots, without the empty ones in front. -/
def pathOf (keys : List String) : String := keys.foldl joinKey ""

theorem validPath_of_joinKey {pre key : String} (h : validPath (joinKey pre key) = true) :
    validPath pre = true := by
  unfold joinKey at h
  split at h
  · rename_i hpre
    subst hpre
    rfl
  · unfold validPath at h ⊢
    rw [String.toList_append, String.toList_append, List.all_append, List.all_append] at h
    simp only [Bool.and_eq_true] at h
    exact h.1.1

/-- A path contains the paths above it. -/
theorem validPath_of_foldl {keys : List String} {pre : String}
    (h : validPath (keys.foldl joinKey pre) = true) : validPath pre = true := by
  induction keys generalizing pre with
  | nil => exact h
  | cons key keys ih => exact validPath_of_joinKey (ih h)

/-- The nodes of a tree whose paths are valid, behind `pre`. -/
def reachable (pre : String) (nodes : List (List String × Node)) : List (String × Node) :=
  (nodes.map fun x => (x.1.foldl joinKey pre, x.2)).filter fun x => validPath x.1

theorem reachable_append (pre : String) (xs ys : List (List String × Node)) :
    reachable pre (xs ++ ys) = reachable pre xs ++ reachable pre ys := by
  simp [reachable]

/-- Below a key. -/
theorem reachable_below (pre key : String) (xs : List (List String × Node)) :
    reachable pre (xs.map fun x => (key :: x.1, x.2)) = reachable (joinKey pre key) xs := by
  unfold reachable
  rw [List.map_map]
  rfl

/-- Below a key that is not valid there is nothing. -/
theorem reachable_invalid {pre : String} (h : validPath pre = false)
    (xs : List (List String × Node)) : reachable pre xs = [] := by
  unfold reachable
  rw [List.filter_eq_nil_iff]
  intro x hx hvalid
  obtain ⟨y, _, rfl⟩ := List.mem_map.mp hx
  rw [validPath_of_foldl hvalid] at h
  cases h

theorem reachable_self {pre : String} (h : validPath pre = true) (n : Node)
    (xs : List (List String × Node)) : reachable pre (([], n) :: xs) = (pre, n) :: reachable pre xs := by
  simp [reachable, h]

mutual

/-- **What is listed**: every node with a valid path, in pre-order. -/
theorem listAllMember_eq (pre : String) : ∀ n : Node, listAllMember pre n = reachable pre (walk n)
  | .map entries => by
      unfold listAllMember walk
      cases h : validPath pre with
      | false => rw [reachable_invalid h]; rfl
      | true => rw [reachable_self h, if_pos rfl, listEntries_eq pre entries]
  | .null | .scalar _ | .sequence _ => by
      unfold listAllMember walk
      cases h : validPath pre with
      | false => rw [reachable_invalid h]; rfl
      | true => rw [reachable_self h]; rfl

theorem listEntries_eq (pre : String) :
    ∀ entries : List (String × Node), listEntries pre entries = reachable pre (walkEntries entries)
  | [] => rfl
  | (key, n) :: entries => by
      unfold listEntries walkEntries
      rw [reachable_append, reachable_below, listAllMember_eq (joinKey pre key) n,
        listEntries_eq pre entries]

end

/-! ## Loading -/

/-- `::tolower`. -/
def tolower (c : Char) : Char := if 'A' ≤ c ∧ c ≤ 'Z' then Char.ofNat (c.toNat + 32) else c

/-- The key a path is looked up by. -/
def lowered (path : String) : String := String.ofList (path.toList.map tolower)

theorem lowered_eq_empty {path : String} (h : lowered path = "") : path = "" := by
  have hlist : path.toList.map tolower = [] := by
    have := congrArg String.toList h
    rwa [lowered, String.toList_ofList] at this
  rw [← String.ofList_toList (s := path), List.map_eq_nil_iff.mp hlist]

/-- What `fromString` is given. -/
def nodeText (yaml : Yaml) (n : Node) : String := if n.isScalar then n.text else yaml.emit n

/-- The registered variables; the one of a name is a `ConfigVar` of the name's type. -/
abbrev ConfigVarMap (T : String → Type) (S : Type) := (name : String) → Option (ConfigVar (T name) S)

variable {T : String → Type} {S : Type}

section Load

variable (type : (name : String) → ValueType (T name)) (yaml : Yaml)

/-- One round of the loop over `all_nodes`. -/
def loadNode (st : ConfigVarMap T S × S) (i : String × Node) : Option (ConfigVarMap T S × S) :=
  if i.1 = "" then some st
  else
    match st.1 (lowered i.1) with
    | none => some st
    | some var =>
        (var.fromString (type (lowered i.1)) (nodeText yaml i.2) st.2).map fun r =>
          (Function.update st.1 (lowered i.1) (some r.2.1), r.2.2)

/-- `Config::LoadFromYaml`, on the registered variables and the state of their listeners. -/
def loadFromYaml (root : Node) (st : ConfigVarMap T S × S) : Option (ConfigVarMap T S × S) :=
  (listAllMember "" root).foldlM (loadNode type yaml) st

/-- The texts that a list of nodes has for a name. -/
def textsOf (name : String) (nodes : List (String × Node)) : List String :=
  (nodes.filter fun x => lowered x.1 = name).map fun x => nodeText yaml x.2

/-- The texts of a tree for a name: of each node with a valid path that is the name in lower case. -/
def delivered (root : Node) (name : String) : List String :=
  ((walk root).filter fun x => validPath (pathOf x.1) && (lowered (pathOf x.1) = name)).map
    fun x => nodeText yaml x.2

end Load

/-- `fromString` on one text after the other; what other variables' listeners do in between shows in the
listeners' state only. -/
inductive Applied {T : Type} (type : ValueType T) :
    List String → ConfigVar T S → ConfigVar T S → Prop
  | nil {var} : Applied type [] var var
  | cons {text texts var s r var'} (h : var.fromString type text s = some r)
      (rest : Applied type texts r.2.1 var') : Applied type (text :: texts) var var'

variable {type : (name : String) → ValueType (T name)} {yaml : Yaml}

theorem delivered_eq (root : Node) (name : String) :
    delivered yaml root name = textsOf yaml name (listAllMember "" root) := by
  unfold delivered textsOf
  rw [listAllMember_eq, reachable, List.filter_filter, List.filter_map, List.map_map]
  congr 1
  refine List.filter_congr ?_
  intro x _
  exact Bool.and_comm _ _

section Round

variable {st st' : ConfigVarMap T S × S} {i : String × Node} {name : String}

/-- A round leaves every other variable alone. -/
theorem loadNode_other (h : loadNode type yaml st i = some st')
    (hname : i.1 = "" ∨ lowered i.1 ≠ name) : st'.1 name = st.1 name := by
  unfold loadNode at h
  split at h
  · cases h
    rfl
  · rename_i hempty
    have hne : name ≠ lowered i.1 := (hname.resolve_left hempty).symm
    split at h
    · cases h
      rfl
    · obtain ⟨r, _, rfl⟩ := Option.map_eq_some_iff.mp h
      exact Function.update_of_ne hne _ _

/-- The variable of the name takes the text. -/
theorem loadNode_self (h : loadNode type yaml st i = some st') (hempty : i.1 ≠ "")
    (hname : lowered i.1 = name) :
    (st.1 name = none → st'.1 name = none) ∧
      ∀ var, st.1 name = some var → ∃ r,
        var.fromString (type name) (nodeText yaml i.2) st.2 = some r ∧ st'.1 name = some r.2.1 := by
  subst hname
  unfold loadNode at h
  rw [if_neg hempty] at h
  split at h
  · rename_i hnone
    cases h
    refine ⟨fun _ => hnone, ?_⟩
    intro var hvar
    exact absurd (hvar.symm.trans hnone) (Option.some_ne_none var)
  · rename_i var hvar
    obtain ⟨r, hr, rfl⟩ := Option.map_eq_some_iff.mp h
    refine ⟨fun hnone => absurd (hvar.symm.trans hnone) (Option.some_ne_none var), ?_⟩
    intro var' hvar'
    rw [hvar] at hvar'
    cases hvar'
    exact ⟨r, hr, Function.update_self ..⟩

/-- No round changes anybody's listeners. -/
theorem loadNode_m_cbs (h : loadNode type yaml st i = some st') {var' : ConfigVar (T name) S}
    (hvar' : st'.1 name = some var') : ∃ var, st.1 name = some var ∧ var'.m_cbs = var.m_cbs := by
  -- only the variable of the node's own name is written
  by_cases hi : i.1 = "" ∨ lowered i.1 ≠ name
  · rw [loadNode_other h hi] at hvar'
    exact ⟨var', hvar', rfl⟩
  · rw [not_or, not_not] at hi
    obtain ⟨hnone, hsome⟩ := loadNode_self h hi.1 hi.2
    cases hvar : st.1 name with
    | none => exact absurd (hvar'.symm.trans (hnone hvar)) (Option.some_ne_none var')
    | some var =>
        obtain ⟨r, hr, hst'⟩ := hsome var hvar
        rw [hvar', Option.some.injEq] at hst'
        subst hst'
        exact ⟨var, rfl, ConfigVar.fromString_m_cbs hr⟩

theorem exists_loadNode (hlive : ∀ name var, st.1 name = some var → var.Survives) :
    ∃ st', loadNode type yaml st i = some st' := by
  unfold loadNode
  split
  · exact ⟨_, rfl⟩
  · split
    · exact ⟨_, rfl⟩
    · rename_i var hvar
      have hrun : ∃ r, var.fromString (type (lowered i.1)) (nodeText yaml i.2) st.2 = some r :=
        (hlive _ var hvar).exists_fromString _ _
      obtain ⟨r, hr⟩ := hrun
      rw [hr]
      exact ⟨_, rfl⟩

end Round

/-- The loop, for one variable. -/
theorem foldlM_loadNode {nodes : List (String × Node)} {st st' : ConfigVarMap T S × S}
    (h : nodes.foldlM (loadNode type yaml) st = some st') {name : String} (hname : name ≠ "") :
    (st.1 name = none → st'.1 name = none) ∧
      ∀ var, st.1 name = some var → ∃ var',
        st'.1 name = some var' ∧ Applied (type name) (textsOf yaml name nodes) var var' := by
  induction nodes generalizing st with
  | nil =>
      obtain rfl : st = st' := by simpa using h
      exact ⟨id, fun var hvar => ⟨var, hvar, .nil⟩⟩
  | cons i nodes ih =>
      rw [List.foldlM_cons] at h
      obtain ⟨st₁, hround, hrest⟩ := Option.bind_eq_some_iff.mp h
      obtain ⟨hnone, hsome⟩ := ih hrest
      by_cases hi : lowered i.1 = name
      · have hempty : i.1 ≠ "" := by
          intro he
          rw [he] at hi
          exact hname hi.symm
        have htexts : textsOf yaml name (i :: nodes)
            = nodeText yaml i.2 :: textsOf yaml name nodes := by
          simp [textsOf, hi]
        obtain ⟨hnone₁, hsome₁⟩ := loadNode_self hround hempty hi
        refine ⟨fun hn => hnone (hnone₁ hn), ?_⟩
        intro var hvar
        obtain ⟨r, hr, hst₁⟩ := hsome₁ var hvar
        obtain ⟨var', hvar', happlied⟩ := hsome r.2.1 hst₁
        rw [htexts]
        exact ⟨var', hvar', .cons hr happlied⟩
      · have htexts : textsOf yaml name (i :: nodes) = textsOf yaml name nodes := by
          simp [textsOf, hi]
        rw [htexts, ← loadNode_other hround (.inr hi)]
        exact ⟨hnone, hsome⟩

/-- A variable without a name is never reached. -/
theorem foldlM_loadNode_empty {nodes : List (String × Node)} {st st' : ConfigVarMap T S × S}
    (h : nodes.foldlM (loadNode type yaml) st = some st') : st'.1 "" = st.1 "" := by
  induction nodes generalizing st with
  | nil =>
      obtain rfl : st = st' := by simpa using h
      rfl
  | cons i nodes ih =>
      rw [List.foldlM_cons] at h
      obtain ⟨st₁, hround, hrest⟩ := Option.bind_eq_some_iff.mp h
      rw [ih hrest]
      refine loadNode_other hround ?_
      by_cases hi : i.1 = ""
      · exact .inl hi
      · exact .inr fun hlow => hi (lowered_eq_empty hlow)

/-- Where no listener ends the process, the loop gets through. -/
theorem exists_foldlM_loadNode (nodes : List (String × Node)) (st : ConfigVarMap T S × S)
    (hlive : ∀ name var, st.1 name = some var → var.Survives) :
    ∃ st', nodes.foldlM (loadNode type yaml) st = some st' := by
  induction nodes generalizing st with
  | nil => exact ⟨st, rfl⟩
  | cons i nodes ih =>
      have hround : ∃ st₁, loadNode type yaml st i = some st₁ := exists_loadNode hlive
      obtain ⟨st₁, hst₁⟩ := hround
      have hlive₁ : ∀ name var, st₁.1 name = some var → var.Survives := by
        intro name var hvar j hj
        obtain ⟨var₀, hvar₀, hcbs⟩ := loadNode_m_cbs hst₁ hvar
        exact hlive name var₀ hvar₀ j (hcbs ▸ hj)
      rw [List.foldlM_cons, hst₁]
      exact ih st₁ hlive₁

/-- With listeners that return, the value is the one the texts lead to. -/
theorem Applied.m_val {T : Type} {type : ValueType T} {texts : List String} {var var' : ConfigVar T S}
    (h : Applied type texts var var') (hreturns : var.Returns) :
    var'.m_val = texts.foldl type.take var.m_val := by
  induction h with
  | nil => rfl
  | cons hrun rest ih =>
      rw [List.foldl_cons, ← hreturns.fromString_m_val hrun]
      refine ih ?_
      intro i hi
      exact hreturns i (ConfigVar.fromString_m_cbs hrun ▸ hi)

/-- **What `LoadFromYaml` does.**  It gets through unless a listener ends the process, and then each
variable with a name has taken the texts that the tree has for it, in pre-order; one for which there are
none is as it was, with the calls of its listeners. -/
theorem loadFromYaml_spec (root : Node) (st : ConfigVarMap T S × S) :
    ((∀ name var, st.1 name = some var → var.Survives) →
      ∃ st', loadFromYaml type yaml root st = some st') ∧
    ∀ st', loadFromYaml type yaml root st = some st' → ∀ name,
      (st.1 name = none → st'.1 name = none) ∧
      ∀ var, st.1 name = some var → ∃ var', st'.1 name = some var' ∧
        (name ≠ "" → Applied (type name) (delivered yaml root name) var var') ∧
        (name ≠ "" → var.Returns →
          var'.m_val = (delivered yaml root name).foldl (type name).take var.m_val) ∧
        (name = "" ∨ delivered yaml root name = [] → var' = var) := by
  refine ⟨exists_foldlM_loadNode _ st, ?_⟩
  intro st' h name
  by_cases hname : name = ""
  · subst hname
    rw [foldlM_loadNode_empty h]
    refine ⟨id, ?_⟩
    intro var hvar
    exact ⟨var, hvar, fun h => absurd rfl h, fun h => absurd rfl h, fun _ => rfl⟩
  · obtain ⟨hnone, hsome⟩ := foldlM_loadNode h hname
    refine ⟨hnone, ?_⟩
    intro var hvar
    obtain ⟨var', hvar', happlied⟩ := hsome var hvar
    rw [← delivered_eq] at happlied
    refine ⟨var', hvar', fun _ => happlied, fun _ hreturns => happlied.m_val hreturns, ?_⟩
    rintro (hempty | hempty)
    · exact absurd hempty hname
    · rw [hempty] at happlied
      cases happlied
      rfl

/-- The variable `system.port`, alone. -/
def systemPort : ConfigVarMap (fun _ => String) Unit :=
  Function.update (fun _ => none) "system.port" (some { m_val := "8080", m_cbs := [] })

/-- `system.port` nested and flat, and below a key that is not valid. -/
def portDocument : Node :=
  .map [("system", .map [("port", .scalar "9900"), ("Port", .scalar "1")]),
    ("system.port", .scalar "9901"), ("SYSTEM", .map [("port", .scalar "2")])]

/-- Documents of one plain scalar. -/
def scalarYaml : Yaml where
  load text := some (.scalar text)
  emit := Node.text
  nullText := some "null"

/-- It takes both values, one after the other. -/
theorem loadFromYaml_portDocument :
    ∃ st', loadFromYaml (fun _ => ⟨fun a b => a == b, some⟩) scalarYaml portDocument (systemPort, ())
        = some st' ∧
      ∃ var', st'.1 "system.port" = some var' ∧ var'.m_val = "9901" := by
  have hport : systemPort "system.port" = some { m_val := "8080", m_cbs := [] } :=
    Function.update_self ..
  have hlive : ∀ name var, systemPort name = some var → var.Survives := by
    intro name var hvar i hi
    have hcbs : var.m_cbs = [] := by
      by_cases hname : name = "system.port"
      · subst hname
        rw [hport, Option.some.injEq] at hvar
        rw [← hvar]
      · rw [systemPort, Function.update_of_ne hname] at hvar
        cases hvar
    rw [hcbs] at hi
    exact absurd hi List.not_mem_nil
  obtain ⟨hruns, hspec⟩ := @loadFromYaml_spec _ _ (fun _ => ⟨fun a b => a == b, some⟩) scalarYaml
    portDocument (systemPort, ())
  obtain ⟨st', hst'⟩ := hruns hlive
  obtain ⟨var', hvar', _, hval, _⟩ := (hspec st' hst' "system.port").2 _ hport
  refine ⟨st', hst', var', hvar', ?_⟩
  rw [hval (by decide) fun i hi => absurd hi List.not_mem_nil]
  decide

end Sylar.Config
