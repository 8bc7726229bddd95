/-
# Sylar.Config.Lookup — which names can be registered and loaded (`sylar/config.{h,cc}`).

A name is documented as `[0-9a-z_.]`.  `Lookup` refuses what has another character, and
`ListAllMember` leaves the parts of a document whose path has one, each by a literal of its own.  The
two literals are the same and lack a character of the documentation, `9`; and `ListAllMember` looks at
a path before `LoadFromYaml` makes it lower case, so that a key with an upper-case letter ends the walk.

Those are the only exceptions (`documented_name`): a documented name can be registered if it has no
`9`, and a node below it is delivered if, besides, the keys that lead there are in lower case.
-/
import Sylar.Config.Load

namespace Sylar.Config

/-! ## Names -/

/-- `[0-9a-z_]`. -/
def documented (c : Char) : Bool := ('0' ≤ c && c ≤ '9') || ('a' ≤ c && c ≤ 'z') || c == '_'

/-- A name as the documentation has it, of parts between dots. -/
structure Documented (name : String) : Prop where
  alphabet : ∀ c ∈ name.toList, documented c = true ∨ c = '.'
  parts : ∀ part ∈ name.toList.splitOn '.', part ≠ []

theorem documented_iff {name : String} : Documented name ↔
    (name.toList.all (fun c => documented c || c == '.') = true ∧
      (name.toList.splitOn '.').all (fun part => !part.isEmpty) = true) := by
  rw [List.all_eq_true, List.all_eq_true]
  constructor
  · intro h
    refine ⟨?_, ?_⟩
    · intro c hc
      simpa using h.alphabet c hc
    · intro part hpart
      simpa using h.parts part hpart
  · rintro ⟨halphabet, hparts⟩
    refine ⟨?_, ?_⟩
    · intro c hc
      simpa using halphabet c hc
    · intro part hpart
      simpa using hparts part hpart

instance (name : String) : Decidable (Documented name) := decidable_of_iff _ documented_iff.symm

/-- The keys are the parts of the name, in any mixture of letter case. -/
def Spells (keys : List String) (name : String) : Prop :=
  keys.map (fun key => (lowered key).toList) = name.toList.splitOn '.'

instance (keys : List String) (name : String) : Decidable (Spells keys name) :=
  inferInstanceAs (Decidable (keys.map (fun key => (lowered key).toList)
    = name.toList.splitOn '.'))

/-- `find_first_not_of(..) == npos` in `Lookup`. -/
def validName (name : String) : Bool :=
  name.toList.all fun c => "abcdefghikjlmnopqrstuvwxyz._012345678".toList.contains c

/-- The two literals are one. -/
theorem validName_eq (name : String) : validName name = validPath name := rfl

/-! ## Lookup -/

section Lookup

variable {T : String → Type} {S : Type}

/-- `Config::Lookup` with a default, where `isType` is what the cast of a variable that is there finds;
`none` is the exception. -/
def lookup (datas : ConfigVarMap T S) (name : String) (default_value : T name) (isType : Bool) :
    Option (ConfigVarMap T S × Option (ConfigVar (T name) S)) :=
  match datas name with
  | some tmp => some (datas, if isType then some tmp else none)
  | none =>
      if !validName name then none
      else
        let v : ConfigVar (T name) S := { m_val := default_value, m_cbs := [] }
        some (Function.update datas name (some v), some v)

/-- A name that is not registered yet is registered iff it is valid. -/
theorem lookup_new {datas : ConfigVarMap T S} {name : String} (h : datas name = none)
    (default_value : T name) (isType : Bool) : lookup datas name default_value isType
      = if validName name then
          some (Function.update datas name (some { m_val := default_value, m_cbs := [] }),
            some { m_val := default_value, m_cbs := [] })
        else none := by
  unfold lookup
  rw [h]
  cases validName name with
  | false => rfl
  | true => rfl

end Lookup

/-! ## Characters -/

/-- What the literals let through is in lower case, and no `9`. -/
theorem of_alphabet : ∀ c ∈ "abcdefghikjlmnopqrstuvwxyz._012345678".toList,
    tolower c = c ∧ c ≠ '9' := by
  have hall : "abcdefghikjlmnopqrstuvwxyz._012345678".toList.all
      (fun c => decide (tolower c = c ∧ c ≠ '9')) = true := by decide
  intro c hc
  exact of_decide_eq_true (List.all_eq_true.mp hall c hc)

/-- They let everything else of the documentation through. -/
theorem alphabet_of_documented {c : Char} (h : documented c = true ∨ c = '.') (hnine : c ≠ '9') :
    "abcdefghikjlmnopqrstuvwxyz._012345678".toList.contains c = true := by
  have hall : ∀ n < 128, documented (Char.ofNat n) = true ∨ Char.ofNat n = '.' →
      Char.ofNat n ≠ '9' →
      "abcdefghikjlmnopqrstuvwxyz._012345678".toList.contains (Char.ofNat n) = true := by
    decide +kernel
  have hsmall : c.toNat < 128 := by
    rcases h with h | rfl
    · simp only [documented, Bool.or_eq_true, Bool.and_eq_true, decide_eq_true_eq, beq_iff_eq] at h
      rcases h with (⟨-, h⟩ | ⟨-, h⟩) | rfl
      · exact lt_of_le_of_lt (show c.toNat ≤ '9'.toNat from h) (by decide)
      · exact lt_of_le_of_lt (show c.toNat ≤ 'z'.toNat from h) (by decide)
      · decide
    · decide
  have := hall c.toNat hsmall
  rw [Char.ofNat_toNat] at this
  exact this h hnine

/-- A documented name is valid iff it has no `9`. -/
theorem validName_iff {name : String} (h : Documented name) :
    validName name = true ↔ '9' ∉ name.toList := by
  unfold validName
  rw [List.all_eq_true]
  constructor
  · intro hvalid hnine
    exact (of_alphabet '9' (List.contains_iff_mem.mp (hvalid '9' hnine))).2 rfl
  · intro hnine c hc
    refine alphabet_of_documented (h.alphabet c hc) ?_
    rintro rfl
    exact hnine hc

/-! ## Paths -/

/-- Joining keys behind a path. -/
theorem foldl_joinKey {keys : List String} {pre : String} (hpre : pre ≠ "") :
    keys.foldl joinKey pre = ".".intercalate (pre :: keys) := by
  induction keys generalizing pre with
  | nil => simp
  | cons key keys ih =>
      have hjoin : joinKey pre key = pre ++ ("." ++ key) := by
        unfold joinKey
        rw [if_neg hpre, String.append_assoc]
      have hne : joinKey pre key ≠ "" := by
        rw [hjoin]
        simp [hpre]
      rw [List.foldl_cons, ih hne, hjoin, String.intercalate_cons_append,
        String.intercalate_cons_append, String.intercalate_cons_cons, String.append_assoc]

/-- The path of keys that are not empty. -/
theorem pathOf_eq {keys : List String} (h : ∀ key ∈ keys, key ≠ "") :
    pathOf keys = ".".intercalate keys := by
  cases keys with
  | nil => rfl
  | cons key keys =>
      have hfirst : joinKey "" key = key := if_pos rfl
      unfold pathOf
      rw [List.foldl_cons, hfirst]
      exact foldl_joinKey (h key List.mem_cons_self)

theorem map_intercalate {α β : Type*} (f : α → β) (sep : List α) (xss : List (List α)) :
    (sep.intercalate xss).map f = (sep.map f).intercalate (xss.map fun xs => xs.map f) := by
  induction xss with
  | nil => rfl
  | cons xs xss ih =>
      cases xss with
      | nil => simp
      | cons ys xss =>
          rw [List.intercalate_cons_cons, List.map_append, List.map_append, ih]
          simp only [List.map_cons, List.intercalate_cons_cons]

theorem mem_intercalate {α : Type*} {sep xs : List α} {x : α} {xss : List (List α)} (hxs : xs ∈ xss)
    (hx : x ∈ xs) : x ∈ sep.intercalate xss := by
  induction xss with
  | nil => cases hxs
  | cons ys xss ih =>
      cases xss with
      | nil =>
          obtain rfl := List.mem_singleton.mp hxs
          rwa [List.intercalate_singleton]
      | cons zs xss =>
          rw [List.intercalate_cons_cons, List.mem_append, List.mem_append]
          rcases List.mem_cons.mp hxs with rfl | hxs
          · exact .inl (.inl hx)
          · exact .inr (ih hxs)

theorem lowered_toList (path : String) : (lowered path).toList = path.toList.map tolower :=
  String.toList_ofList

/-- A path in lower case is that of the keys in lower case. -/
theorem lowered_pathOf_toList {keys : List String} (h : ∀ key ∈ keys, key ≠ "") :
    (lowered (pathOf keys)).toList = ['.'].intercalate (keys.map fun key => (lowered key).toList) := by
  rw [lowered_toList, pathOf_eq h, String.toList_intercalate, map_intercalate, List.map_map]
  have hkeys : keys.map (List.map tolower ∘ String.toList)
      = keys.map fun key => (lowered key).toList :=
    List.map_congr_left fun key _ => (lowered_toList key).symm
  rw [hkeys]
  rfl

/-- The keys a name is spelled with are not empty. -/
theorem Spells.ne_empty {keys : List String} {name : String} (hname : Documented name)
    (hkeys : Spells keys name) : ∀ key ∈ keys, key ≠ "" := by
  intro key hkey hempty
  have hpart : (lowered key).toList ∈ name.toList.splitOn '.' := by
    rw [← hkeys]
    exact List.mem_map_of_mem hkey
  refine hname.parts _ hpart ?_
  rw [hempty]
  rfl

/-- Their path in lower case is the name. -/
theorem lowered_pathOf {keys : List String} {name : String} (hname : Documented name)
    (hkeys : Spells keys name) : lowered (pathOf keys) = name := by
  rw [← String.toList_inj, lowered_pathOf_toList (hkeys.ne_empty hname),
    show keys.map (fun key => (lowered key).toList) = name.toList.splitOn '.' from hkeys,
    List.intercalate_splitOn]

/-- A path is valid iff the name has no `9` and each of the keys is in lower case. -/
theorem validPath_pathOf_iff {keys : List String} {name : String} (hname : Documented name)
    (hkeys : Spells keys name) : validPath (pathOf keys) = true ↔
      '9' ∉ name.toList ∧ ∀ key ∈ keys, lowered key = key := by
  have hne := hkeys.ne_empty hname
  have hlow := lowered_pathOf hname hkeys
  constructor
  · intro hvalid
    have hchar : ∀ c ∈ (pathOf keys).toList, tolower c = c := by
      intro c hc
      exact (of_alphabet c (List.contains_iff_mem.mp (List.all_eq_true.mp hvalid c hc))).1
    have hself : ∀ path : String, (∀ c ∈ path.toList, tolower c = c) → lowered path = path := by
      intro path hpath
      rw [← String.toList_inj, lowered_toList]
      exact (List.map_congr_left hpath).trans (List.map_id _)
    have hpath : pathOf keys = name := (hself _ hchar).symm.trans hlow
    refine ⟨?_, ?_⟩
    · rw [← validName_iff hname, validName_eq, ← hpath]
      exact hvalid
    · intro key hkey
      apply hself
      intro c hc
      apply hchar
      rw [pathOf_eq hne, String.toList_intercalate]
      exact mem_intercalate (List.mem_map_of_mem hkey) hc
  · rintro ⟨hnine, hlower⟩
    have hpath : pathOf keys = name := by
      have hkeys : keys.map String.toList = keys.map fun key => (lowered key).toList := by
        refine List.map_congr_left fun key hkey => ?_
        rw [hlower key hkey]
      rw [← hlow, ← String.toList_inj, lowered_pathOf_toList hne, pathOf_eq hne,
        String.toList_intercalate, hkeys]
      rfl
    rw [hpath, ← validName_eq, validName_iff hname]
    exact hnine

/-! ## Loading -/

/-- The nodes that `LoadFromYaml` gives to the variable `name`, with the keys that lead to them. -/
def deliveries (root : Node) (name : String) : List (List String × Node) :=
  (walk root).filter fun x => validPath (pathOf x.1) && (lowered (pathOf x.1) = name)

/-- `Lookup` registers the name, whatever its type and default, where it is not registered. -/
def Registers (name : String) : Prop :=
  ∀ {T : String → Type} {S : Type} (datas : ConfigVarMap T S) (default_value : T name) (isType : Bool),
    datas name = none → lookup datas name default_value isType
      = some (Function.update datas name (some { m_val := default_value, m_cbs := [] }),
          some { m_val := default_value, m_cbs := [] })

/-- `LoadFromYaml` gives the node below `keys` to the variable `name`. -/
structure Delivers (root : Node) (keys : List String) (n : Node) (name : String) : Prop where
  listed : (keys, n) ∈ deliveries root name
  /-- What is listed is what the variable takes, one after the other. -/
  taken : ∀ {T : String → Type} {S : Type} (type : (name : String) → ValueType (T name)) (yaml : Yaml)
    (st st' : ConfigVarMap T S × S), loadFromYaml type yaml root st = some st' →
    ∀ var, st.1 name = some var → ∃ var', st'.1 name = some var' ∧
      Applied (type name) ((deliveries root name).map fun x => nodeText yaml x.2) var var'

/-- A name that can be registered has a `Lookup` that goes through. -/
theorem registers_iff {name : String} (hname : Documented name) :
    Registers name ↔ '9' ∉ name.toList := by
  rw [← validName_iff hname]
  constructor
  · intro hregisters
    have hgo := @hregisters (fun _ => Unit) Unit (fun _ => none) () true rfl
    rw [lookup_new (h := rfl)] at hgo
    by_contra hinvalid
    rw [if_neg hinvalid] at hgo
    cases hgo
  · intro hvalid T S datas default_value isType hnew
    rw [lookup_new hnew, if_pos hvalid]

theorem delivers_iff {name : String} (hname : Documented name) {root : Node} {keys : List String}
    {n : Node} (hnode : (keys, n) ∈ walk root) (hkeys : Spells keys name) :
    Delivers root keys n name ↔ '9' ∉ name.toList ∧ ∀ key ∈ keys, lowered key = key := by
  rw [← validPath_pathOf_iff hname hkeys]
  have hlow := lowered_pathOf hname hkeys
  constructor
  · intro h
    have hfilter := (List.mem_filter.mp h.listed).2
    rw [Bool.and_eq_true] at hfilter
    exact hfilter.1
  · intro hvalid
    refine ⟨?_, ?_⟩
    · refine List.mem_filter.mpr ⟨hnode, ?_⟩
      simp [hvalid, hlow]
    · intro T S type yaml st st' hload var hvar
      have hne : name ≠ "" := by
        rintro rfl
        exact hname.parts [] (by decide) rfl
      obtain ⟨var', hvar', htaken, -⟩ := ((loadFromYaml_spec root st).2 st' hload name).2 var hvar
      exact ⟨var', hvar', htaken hne⟩

/-- **Which documented names can be registered and loaded.** -/
theorem documented_name {name : String} (hname : Documented name) :
    (Registers name ↔ '9' ∉ name.toList) ∧
      ∀ (root : Node) (keys : List String) (n : Node), (keys, n) ∈ walk root → Spells keys name →
        (Delivers root keys n name ↔ '9' ∉ name.toList ∧ ∀ key ∈ keys, lowered key = key) :=
  ⟨registers_iff hname, fun _ _ _ hnode hkeys => delivers_iff hname hnode hkeys⟩

/-- `tcp.connect_timeout2`, nested. -/
def timeoutDocument (key : String) : Node := .map [(key, .map [("connect_timeout2", .scalar "5000")])]

theorem documented_name_timeout : Registers "tcp.connect_timeout2" ∧
    Delivers (timeoutDocument "tcp") ["tcp", "connect_timeout2"] (.scalar "5000")
      "tcp.connect_timeout2" := by
  have hname : Documented "tcp.connect_timeout2" := by decide
  have hboth := documented_name hname
  refine ⟨hboth.1.mpr (by decide), (hboth.2 _ _ _ ?_ (by decide)).mpr (by decide)⟩
  simp [timeoutDocument, walk, walkEntries]

/-- A name with a `9` is refused, and a key with a capital letter is left out. -/
theorem documented_name_refused :
    (Documented "tcp.port9" ∧ lookup (fun _ => none : ConfigVarMap (fun _ => Int) Unit) "tcp.port9" 80 true
      = none) ∧
    Documented "tcp.connect_timeout2" ∧ Spells ["Tcp", "connect_timeout2"] "tcp.connect_timeout2" ∧
    (["Tcp", "connect_timeout2"], Node.scalar "5000") ∈ walk (timeoutDocument "Tcp") ∧
    ¬ Delivers (timeoutDocument "Tcp") ["Tcp", "connect_timeout2"] (.scalar "5000")
      "tcp.connect_timeout2" := by
  refine ⟨⟨by decide, rfl⟩, by decide, by decide, ?_, ?_⟩
  · simp [timeoutDocument, walk, walkEntries]
  · intro h
    have hfilter := (List.mem_filter.mp h.listed).2
    exact absurd hfilter (by decide)

end Sylar.Config
