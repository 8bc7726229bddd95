/-
# Sylar.Config.Cast — configuration values of container types, to text and back.

The twelve specialisations of `LexicalCast` (`sylar/config.h`) go through text at every level: an
element's text is loaded to become a node of the container's, and a container's node is written out
node by node for the elements to read.  Each is given the cast of its elements, as the template is,
and `kind` puts them together along a type.  `boost::lexical_cast` is a parameter (`Lexical`), as is
the order in which an unordered container keeps its elements (`Buckets`).
-/
import Sylar.Config.Yaml
import Sylar.Lib.OrderedSet
import Sylar.Lib.HashSet
import Mathlib

namespace Sylar.Config

open Sylar.Lib

/-- `boost::lexical_cast` between `int` and `std::string`. -/
structure Lexical where
  print : Int32 → String
  parse : String → Option Int32

/-- `node[key] = value` on a map. -/
def assign (entries : List (String × Node)) (key : String) (value : Node) :
    List (String × Node) :=
  if key ∈ entries.map Prod.fst then
    entries.map fun e => if e.1 = key then (key, value) else e
  else
    entries ++ [(key, value)]

namespace LexicalCast

variable {T : Type} (yaml : Yaml)

/-! ## The loops -/

/-- Over `node[i]`; a node that is not defined is written as nothing. -/
def items (cast : String → Option T) (node : Node) : Option (List T) :=
  (List.range node.size).mapM fun i => do
    -- the elements of a sequence; of a map, what its keys `0`, `1`, .. lead to
    let found ← node.item i
    cast ((found.map yaml.emit).getD "")

/-- Over the pairs of a node; those of a sequence have no key. -/
def pairs (cast : String → Option T) : Node → Option (List (String × T))
  | .map entries => entries.mapM fun e => do
      let value ← cast (yaml.emit e.2)
      some (e.1, value)
  -- `begin()` is `end()`
  | .null | .scalar _ | .sequence [] => some []
  -- `it->first` is no node, and `Scalar()` throws
  | .sequence (_ :: _) => none

/-- `push_back` of every element. -/
def sequenceText (cast : T → Option String) (v : List T) : Option String := do
  let nodes ← v.mapM fun i => do
    let text ← cast i
    yaml.load text
  some (yaml.emit (.sequence nodes))

/-- Assignment of every key. -/
def mapText (cast : T → Option String) (v : List (String × T)) : Option String := do
  let nodes ← v.mapM fun i => do
    let text ← cast i.2
    let value ← yaml.load text
    some (i.1, value)
  some (yaml.emit (.map (nodes.foldl (fun entries e => assign entries e.1 e.2) [])))

/-! ## The specialisations -/

def stringToVector (cast : String → Option T) (v : String) : Option (List T) := do
  let node ← yaml.load v
  items yaml cast node

def vectorToString (cast : T → Option String) (v : List T) : Option String :=
  sequenceText yaml cast v

def stringToList (cast : String → Option T) (v : String) : Option (List T) := do
  let node ← yaml.load v
  items yaml cast node

def listToString (cast : T → Option String) (v : List T) : Option String :=
  sequenceText yaml cast v

def stringToSet [LinearOrder T] (cast : String → Option T) (v : String) :
    Option (OrderedBy (id : T → T)) := do
  let node ← yaml.load v
  let elems ← items yaml cast node
  some (elems.foldl OrderedBy.insert .empty)

def setToString [LinearOrder T] (cast : T → Option String) (v : OrderedBy (id : T → T)) :
    Option String := sequenceText yaml cast v.elems

def stringToUnorderedSet [DecidableEq T] (buckets : Buckets) (cast : String → Option T)
    (v : String) : Option (DistinctBy (id : T → T)) := do
  let node ← yaml.load v
  let elems ← items yaml cast node
  some (elems.foldl (DistinctBy.insert buckets) .empty)

def unorderedSetToString (cast : T → Option String) (v : DistinctBy (id : T → T)) :
    Option String := sequenceText yaml cast v.elems

def stringToMap (cast : String → Option T) (v : String) :
    Option (OrderedBy (Prod.fst : String × T → String)) := do
  let node ← yaml.load v
  let elems ← pairs yaml cast node
  some (elems.foldl OrderedBy.insert .empty)

def mapToString (cast : T → Option String) (v : OrderedBy (Prod.fst : String × T → String)) :
    Option String := mapText yaml cast v.elems

def stringToUnorderedMap (buckets : Buckets) (cast : String → Option T) (v : String) :
    Option (DistinctBy (Prod.fst : String × T → String)) := do
  let node ← yaml.load v
  let elems ← pairs yaml cast node
  some (elems.foldl (DistinctBy.insert buckets) .empty)

def unorderedMapToString (cast : T → Option String)
    (v : DistinctBy (Prod.fst : String × T → String)) : Option String :=
  mapText yaml cast v.elems

end LexicalCast

/-! ## Types -/

/-- A configuration type: its values, how they compare and the casts `ConfigVar` is given. -/
structure Kind (ordered : Bool) where
  Val : Type
  /-- `operator==`. -/
  same : Val → Val → Prop
  /-- `operator<`, where there is one. -/
  order : ordered = true → LinearOrder Val
  /-- `LexicalCast<T, std::string>`. -/
  toString : Val → Option String
  /-- `LexicalCast<std::string, T>`. -/
  fromString : String → Option Val
  /-- The node a value is meant to be written as. -/
  node : Val → Node
  eq_of_same : ordered = true → ∀ {v w : Val}, same v w → v = w

instance (k : Kind true) : LinearOrder k.Val := k.order rfl

/-- Pairs of a map are equal when keys and values are. -/
def SamePair {α : Type} (r : α → α → Prop) (a b : String × α) : Prop := a.1 = b.1 ∧ r a.2 b.2

section Agree

variable {α : Type} {r : α → α → Prop}

/-- Lists that agree place by place under an exact comparison are one. -/
theorem eq_of_forall₂ (hr : ∀ {a b : α}, r a b → a = b) {xs ys : List α}
    (h : List.Forall₂ r xs ys) : xs = ys := by
  induction h with
  | nil => rfl
  | cons hab _ ih => rw [hr hab, ih]

theorem eq_of_samePair (hr : ∀ {a b : α}, r a b → a = b) {a b : String × α}
    (h : SamePair r a b) : a = b := Prod.ext h.1 (hr h.2)

end Agree

namespace Kind

variable {o : Bool}

def int (lexical : Lexical) : Kind true where
  Val := Int32
  same := Eq
  order _ := LinearOrder.lift' Int32.toInt fun _ _ => Int32.toInt_inj.mp
  toString i := some (lexical.print i)
  fromString := lexical.parse
  node i := .scalar (lexical.print i)
  eq_of_same _ _ _ h := h

def vector (yaml : Yaml) (k : Kind o) : Kind o where
  Val := List k.Val
  same := List.Forall₂ k.same
  order h :=
    letI := k.order h
    inferInstanceAs (LinearOrder (List k.Val))
  toString := LexicalCast.vectorToString yaml k.toString
  fromString := LexicalCast.stringToVector yaml k.fromString
  node v := .sequence (v.map k.node)
  eq_of_same h := eq_of_forall₂ (k.eq_of_same h)

def list (yaml : Yaml) (k : Kind o) : Kind o where
  Val := List k.Val
  same := List.Forall₂ k.same
  order h :=
    letI := k.order h
    inferInstanceAs (LinearOrder (List k.Val))
  toString := LexicalCast.listToString yaml k.toString
  fromString := LexicalCast.stringToList yaml k.fromString
  node v := .sequence (v.map k.node)
  eq_of_same h := eq_of_forall₂ (k.eq_of_same h)

def set (yaml : Yaml) (k : Kind true) : Kind true where
  Val := OrderedBy (id : k.Val → k.Val)
  same v w := List.Forall₂ k.same v.elems w.elems
  order _ := LinearOrder.lift' OrderedBy.elems OrderedBy.elems_injective
  toString := LexicalCast.setToString yaml k.toString
  fromString := LexicalCast.stringToSet yaml k.fromString
  node v := .sequence (v.elems.map k.node)
  eq_of_same h _ _ heq := OrderedBy.elems_injective (eq_of_forall₂ (k.eq_of_same h) heq)

def unorderedSet (yaml : Yaml) (buckets : Buckets) (k : Kind true) : Kind false where
  Val := DistinctBy (id : k.Val → k.Val)
  same v w := SameElems k.same v.elems w.elems
  order h := nomatch h
  toString := LexicalCast.unorderedSetToString yaml k.toString
  fromString := LexicalCast.stringToUnorderedSet yaml buckets k.fromString
  node v := .sequence (v.elems.map k.node)
  eq_of_same h := nomatch h

def map (yaml : Yaml) (k : Kind o) : Kind o where
  Val := OrderedBy (Prod.fst : String × k.Val → String)
  same v w := List.Forall₂ (SamePair k.same) v.elems w.elems
  order h :=
    letI := k.order h
    -- pairs compare by key, then by value
    LinearOrder.lift' (fun v => v.elems.map toLex)
      ((List.map_injective_iff.mpr toLex.injective).comp OrderedBy.elems_injective)
  toString := LexicalCast.mapToString yaml k.toString
  fromString := LexicalCast.stringToMap yaml k.fromString
  node v := .map (v.elems.map fun e => (e.1, k.node e.2))
  eq_of_same h _ _ heq :=
    OrderedBy.elems_injective (eq_of_forall₂ (eq_of_samePair (k.eq_of_same h)) heq)

def unorderedMap (yaml : Yaml) (buckets : Buckets) (k : Kind o) : Kind false where
  Val := DistinctBy (Prod.fst : String × k.Val → String)
  same v w := SameElems (SamePair k.same) v.elems w.elems
  order h := nomatch h
  toString := LexicalCast.unorderedMapToString yaml k.toString
  fromString := LexicalCast.stringToUnorderedMap yaml buckets k.fromString
  node v := .map (v.elems.map fun e => (e.1, k.node e.2))
  eq_of_same h := nomatch h

end Kind

/-- Containers over `int`; the index says whether the type has an `operator<`, which a `std::set` needs
of its elements. -/
inductive Ty : Bool → Type
  | int : Ty true
  | vector {o : Bool} (t : Ty o) : Ty o
  | list {o : Bool} (t : Ty o) : Ty o
  | set (t : Ty true) : Ty true
  | unorderedSet : Ty false
  | map {o : Bool} (t : Ty o) : Ty o
  | unorderedMap {o : Bool} (t : Ty o) : Ty false

section Types

variable (yaml : Yaml) (lexical : Lexical) (buckets : Buckets)

def kind : {o : Bool} → Ty o → Kind o
  | _, .int => .int lexical
  | _, .vector t => (kind t).vector yaml
  | _, .list t => (kind t).list yaml
  | _, .set t => (kind t).set yaml
  | _, .unorderedSet => (Kind.int lexical).unorderedSet yaml buckets
  | _, .map t => (kind t).map yaml
  | _, .unorderedMap t => (kind t).unorderedMap yaml buckets

end Types

/-! ## The round trip -/

/-- The nodes a node holds. -/
def Node.children : Node → List Node
  | .null | .scalar _ => []
  | .sequence items => items
  | .map entries => entries.map Prod.snd

/-- `YAML::Load` reads a node, and every node in it, as it was written. -/
inductive Returns (yaml : Yaml) : Node → Prop
  | intro {n : Node} (load : yaml.load (yaml.emit n) = some n)
      (children : ∀ m ∈ n.children, Returns yaml m) : Returns yaml n

theorem Returns.load {yaml : Yaml} {n : Node} : Returns yaml n →
    yaml.load (yaml.emit n) = some n
  | .intro load _ => load

theorem Returns.children {yaml : Yaml} {n m : Node} : Returns yaml n → m ∈ n.children →
    Returns yaml m
  | .intro _ children, hm => children m hm

/-- A value is written as its node, and a value equal to it is read. -/
def Kind.RoundTrips {o : Bool} (yaml : Yaml) (k : Kind o) : Prop :=
  ∀ v : k.Val, Returns yaml (k.node v) →
    k.toString v = some (yaml.emit (k.node v)) ∧
      ∃ w, k.fromString (yaml.emit (k.node v)) = some w ∧ k.same w v

/-- Where every round of a loop gives what it is to be related to, the whole does. -/
theorem exists_mapM {α β γ : Type} {f : α → Option β} {r : β → γ → Prop} :
    ∀ {xs : List α} {zs : List γ}, List.Forall₂ (fun a c => ∃ b, f a = some b ∧ r b c) xs zs →
      ∃ ys, xs.mapM f = some ys ∧ List.Forall₂ r ys zs
  | _, _, .nil => ⟨[], rfl, .nil⟩
  | a :: xs, c :: zs, .cons ⟨b, hb, hr⟩ h => by
      obtain ⟨ys, hys, hall⟩ := exists_mapM h
      refine ⟨b :: ys, ?_, .cons hr hall⟩
      rw [List.mapM_cons, hb, hys]
      rfl

section Loops

open LexicalCast

variable {yaml : Yaml} {o : Bool} {k : Kind o}

/-- A sequence is written with the node of every element. -/
theorem sequenceText_eq (hk : k.RoundTrips yaml) {vs : List k.Val}
    (hreturns : Returns yaml (.sequence (vs.map k.node))) :
    sequenceText yaml k.toString vs = some (yaml.emit (.sequence (vs.map k.node))) := by
  have hnode : ∀ v ∈ vs, (do
      let text ← k.toString v
      yaml.load text) = some (k.node v) := by
    intro v hv
    have hchild : Returns yaml (k.node v) := hreturns.children (List.mem_map_of_mem hv)
    rw [(hk v hchild).1]
    exact hchild.load
  rw [sequenceText, mapM_eq_some hnode]
  rfl

/-- Each element of a sequence is read back. -/
theorem items_eq (hk : k.RoundTrips yaml) {vs : List k.Val}
    (hreturns : Returns yaml (.sequence (vs.map k.node))) :
    ∃ ws, items yaml k.fromString (.sequence (vs.map k.node)) = some ws ∧
      List.Forall₂ k.same ws vs := by
  apply exists_mapM
  rw [List.forall₂_iff_get]
  refine ⟨?_, ?_⟩
  · show (List.range (vs.map k.node).length).length = vs.length
    rw [List.length_range, List.length_map]
  · intro i _ hi
    have hread : (Node.sequence (vs.map k.node)).item i = some (some (k.node vs[i])) := by
      show some ((vs.map k.node)[i]?) = _
      rw [List.getElem?_map, List.getElem?_eq_getElem hi]
      rfl
    have hchild : Returns yaml (k.node vs[i]) :=
      hreturns.children (List.mem_map_of_mem (List.getElem_mem hi))
    obtain ⟨w, hw, hsame⟩ := (hk vs[i] hchild).2
    refine ⟨w, ?_, hsame⟩
    rw [List.get_eq_getElem, List.getElem_range, hread]
    exact hw

/-- A key that is not there is added. -/
theorem assign_of_notMem {entries : List (String × Node)} {key : String} (value : Node)
    (h : key ∉ entries.map Prod.fst) : assign entries key value = entries ++ [(key, value)] :=
  if_neg h

/-- What is assigned under different keys stands as it came. -/
theorem foldl_assign : ∀ {es acc : List (String × Node)}, Distinct Prod.fst (acc ++ es) →
    es.foldl (fun entries e => assign entries e.1 e.2) acc = acc ++ es
  | [], acc, _ => (List.append_nil acc).symm
  | e :: es, acc, h => by
      have happend : acc ++ e :: es = (acc ++ [e]) ++ es := List.append_cons acc e es
      rw [List.foldl_cons, assign_of_notMem e.2 h.notMem_front, foldl_assign (happend ▸ h), happend]

/-- A map is written with its keys and the node of every value. -/
theorem mapText_eq (hk : k.RoundTrips yaml) {vs : List (String × k.Val)}
    (hdistinct : Distinct Prod.fst vs)
    (hreturns : Returns yaml (.map (vs.map fun e => (e.1, k.node e.2)))) :
    mapText yaml k.toString vs
      = some (yaml.emit (.map (vs.map fun e => (e.1, k.node e.2)))) := by
  have hnode : ∀ e ∈ vs, (do
      let text ← k.toString e.2
      let value ← yaml.load text
      some (e.1, value)) = some (e.1, k.node e.2) := by
    intro e he
    have hchild : Returns yaml (k.node e.2) := by
      apply hreturns.children
      exact List.mem_map.mpr ⟨_, List.mem_map_of_mem he, rfl⟩
    rw [(hk e.2 hchild).1]
    show ((yaml.load (yaml.emit (k.node e.2))).bind fun value => some (e.1, value)) = _
    rw [hchild.load]
    rfl
  have hkeys : Distinct Prod.fst ([] ++ vs.map fun e => (e.1, k.node e.2)) := by
    show ((vs.map fun e => (e.1, k.node e.2)).map Prod.fst).Nodup
    rw [List.map_map]
    exact hdistinct
  rw [mapText, mapM_eq_some hnode]
  show some (yaml.emit (.map (List.foldl _ [] _))) = _
  rw [foldl_assign hkeys]
  rfl

/-- Each pair of a map is read back. -/
theorem pairs_eq (hk : k.RoundTrips yaml) {vs : List (String × k.Val)}
    (hreturns : Returns yaml (.map (vs.map fun e => (e.1, k.node e.2)))) :
    ∃ ws, pairs yaml k.fromString (.map (vs.map fun e => (e.1, k.node e.2))) = some ws ∧
      List.Forall₂ (SamePair k.same) ws vs := by
  apply exists_mapM
  rw [List.forall₂_map_left_iff, List.forall₂_same]
  intro e he
  have hchild : Returns yaml (k.node e.2) := by
    apply hreturns.children
    exact List.mem_map.mpr ⟨_, List.mem_map_of_mem he, rfl⟩
  obtain ⟨w, hw, hsame⟩ := (hk e.2 hchild).2
  refine ⟨(e.1, w), ?_, rfl, hsame⟩
  rw [hw]
  rfl

end Loops

/-! ### What a text is read as, once it is loaded -/

section Read

open LexicalCast

variable {yaml : Yaml} {T : Type} {cast : String → Option T} {text : String} {n : Node}

theorem stringToVector_eq {ws : List T} (hload : yaml.load text = some n)
    (hitems : items yaml cast n = some ws) : stringToVector yaml cast text = some ws := by
  simp [stringToVector, hload, hitems]

theorem stringToSet_eq [LinearOrder T] {ws : List T} (hload : yaml.load text = some n)
    (hitems : items yaml cast n = some ws) :
    stringToSet yaml cast text = some (ws.foldl OrderedBy.insert .empty) := by
  simp [stringToSet, hload, hitems]

theorem stringToUnorderedSet_eq [DecidableEq T] {buckets : Buckets} {ws : List T}
    (hload : yaml.load text = some n) (hitems : items yaml cast n = some ws) :
    stringToUnorderedSet yaml buckets cast text
      = some (ws.foldl (DistinctBy.insert buckets) .empty) := by
  simp [stringToUnorderedSet, hload, hitems]

theorem stringToMap_eq {ws : List (String × T)} (hload : yaml.load text = some n)
    (hpairs : pairs yaml cast n = some ws) :
    stringToMap yaml cast text = some (ws.foldl OrderedBy.insert .empty) := by
  simp [stringToMap, hload, hpairs]

theorem stringToUnorderedMap_eq {buckets : Buckets} {ws : List (String × T)}
    (hload : yaml.load text = some n) (hpairs : pairs yaml cast n = some ws) :
    stringToUnorderedMap yaml buckets cast text
      = some (ws.foldl (DistinctBy.insert buckets) .empty) := by
  simp [stringToUnorderedMap, hload, hpairs]

end Read

namespace Kind

variable {yaml : Yaml} {o : Bool} {k : Kind o}

theorem roundTrips_int {lexical : Lexical}
    (hparse : ∀ i, lexical.parse (lexical.print i) = some i)
    (hscalar : ∀ i, yaml.emit (.scalar (lexical.print i)) = lexical.print i) :
    (int lexical).RoundTrips yaml := by
  intro i _
  refine ⟨congrArg some (hscalar i).symm, i, ?_, rfl⟩
  show lexical.parse (yaml.emit (.scalar (lexical.print i))) = some i
  rw [hscalar i]
  exact hparse i

theorem RoundTrips.vector (hk : k.RoundTrips yaml) : (k.vector yaml).RoundTrips yaml := by
  intro v hreturns
  obtain ⟨w, hw, hsame⟩ := items_eq hk hreturns
  exact ⟨sequenceText_eq hk hreturns, w, stringToVector_eq hreturns.load hw, hsame⟩

theorem RoundTrips.list (hk : k.RoundTrips yaml) : (k.list yaml).RoundTrips yaml := hk.vector

/-- The elements of a set come in order, and insertion leaves them there. -/
theorem RoundTrips.set {k : Kind true} (hk : k.RoundTrips yaml) :
    (k.set yaml).RoundTrips yaml := by
  intro v hreturns
  obtain ⟨ws, hws, hsame⟩ := items_eq hk hreturns
  -- elements that can be ordered come back as themselves, so they still are in order
  have hv : ws = v.elems := eq_of_forall₂ (k.eq_of_same rfl) hsame
  have helems : (ws.foldl OrderedBy.insert (.empty : OrderedBy id)).elems = ws :=
    OrderedBy.elems_foldl_insert_empty (hv ▸ v.ordered)
  refine ⟨sequenceText_eq hk hreturns, _, stringToSet_eq hreturns.load hws, ?_⟩
  show List.Forall₂ k.same (ws.foldl OrderedBy.insert .empty).elems v.elems
  rw [helems]
  exact hsame

/-- Those of an unordered set come in any order, and stay all there. -/
theorem RoundTrips.unorderedSet {k : Kind true} {buckets : Buckets} (hk : k.RoundTrips yaml) :
    (k.unorderedSet yaml buckets).RoundTrips yaml := by
  intro v hreturns
  obtain ⟨ws, hws, hsame⟩ := items_eq hk hreturns
  have hv : ws = v.elems := eq_of_forall₂ (k.eq_of_same rfl) hsame
  have hperm : (ws.foldl (DistinctBy.insert buckets) (.empty : DistinctBy id)).elems.Perm ws :=
    DistinctBy.perm_foldl_insert_empty buckets (hv ▸ v.distinct)
  exact ⟨sequenceText_eq hk hreturns, _, stringToUnorderedSet_eq hreturns.load hws,
    SameElems.of_perm hperm hsame⟩

/-- Pairs that agree have the keys of each other. -/
theorem keys_eq {r : k.Val → k.Val → Prop} {vs ws : List (String × k.Val)}
    (h : List.Forall₂ (SamePair r) ws vs) : ws.map Prod.fst = vs.map Prod.fst := by
  induction h with
  | nil => rfl
  | cons hab _ ih => rw [List.map_cons, List.map_cons, hab.1, ih]

theorem RoundTrips.map (hk : k.RoundTrips yaml) : (k.map yaml).RoundTrips yaml := by
  intro v hreturns
  obtain ⟨ws, hws, hsame⟩ := pairs_eq hk hreturns
  -- the values may come back as other ones that are equal; the keys are the same
  have hordered : Ordered Prod.fst ws := by
    have hkeys : (v.elems.map Prod.fst).Pairwise (· < ·) := List.pairwise_map.mpr v.ordered
    rw [← keys_eq hsame] at hkeys
    exact List.pairwise_map.mp hkeys
  have hdistinct : Distinct Prod.fst v.elems :=
    (List.pairwise_map.mpr v.ordered).imp fun hlt => ne_of_lt hlt
  have helems : (ws.foldl OrderedBy.insert (.empty : OrderedBy Prod.fst)).elems = ws :=
    OrderedBy.elems_foldl_insert_empty hordered
  refine ⟨mapText_eq hk hdistinct hreturns, _, stringToMap_eq hreturns.load hws, ?_⟩
  show List.Forall₂ (SamePair k.same) (ws.foldl OrderedBy.insert .empty).elems v.elems
  rw [helems]
  exact hsame

theorem RoundTrips.unorderedMap {buckets : Buckets} (hk : k.RoundTrips yaml) :
    (k.unorderedMap yaml buckets).RoundTrips yaml := by
  intro v hreturns
  obtain ⟨ws, hws, hsame⟩ := pairs_eq hk hreturns
  have hdistinct : Distinct Prod.fst ws := by
    show (ws.map Prod.fst).Nodup
    rw [keys_eq hsame]
    exact v.distinct
  have hperm : (ws.foldl (DistinctBy.insert buckets) (.empty : DistinctBy Prod.fst)).elems.Perm ws :=
    DistinctBy.perm_foldl_insert_empty buckets hdistinct
  exact ⟨mapText_eq hk v.distinct hreturns, _, stringToUnorderedMap_eq hreturns.load hws,
    SameElems.of_perm hperm hsame⟩

end Kind

section Types

variable {yaml : Yaml} {lexical : Lexical} (buckets : Buckets)

/-- Every type goes through text and back, level by level. -/
theorem roundTrips_kind (hparse : ∀ i, lexical.parse (lexical.print i) = some i)
    (hscalar : ∀ i, yaml.emit (.scalar (lexical.print i)) = lexical.print i) :
    ∀ {o : Bool} (t : Ty o), (kind yaml lexical buckets t).RoundTrips yaml := by
  intro o t
  induction t with
  | int => exact Kind.roundTrips_int hparse hscalar
  | vector _ ih => exact ih.vector
  | list _ ih => exact ih.list
  | set _ ih => exact ih.set
  | unorderedSet => exact (Kind.roundTrips_int hparse hscalar).unorderedSet
  | map _ ih => exact ih.map
  | unorderedMap _ ih => exact ih.unorderedMap

/-- A configuration value comes back from its text: as an equal value, and where no container of the
type is unordered as the value itself. -/
theorem lexicalCast_roundTrips (hparse : ∀ i, lexical.parse (lexical.print i) = some i)
    (hscalar : ∀ i, yaml.emit (.scalar (lexical.print i)) = lexical.print i)
    {o : Bool} (t : Ty o) (v : (kind yaml lexical buckets t).Val)
    (hreturns : Returns yaml ((kind yaml lexical buckets t).node v)) :
    ∃ w, ((kind yaml lexical buckets t).toString v).bind (kind yaml lexical buckets t).fromString
        = some w ∧
      (kind yaml lexical buckets t).same w v ∧ (o = true → w = v) := by
  obtain ⟨htext, w, hw, hsame⟩ := roundTrips_kind buckets hparse hscalar t v hreturns
  refine ⟨w, ?_, hsame, ?_⟩
  · rw [htext]
    exact hw
  · intro ho
    exact (kind yaml lexical buckets t).eq_of_same ho hsame

end Types

/-- Decimal text. -/
def decimal : Lexical where
  print i := i.toInt.repr
  parse text := do
    let n ← text.toInt?
    if -2 ^ 31 ≤ n ∧ n < 2 ^ 31 then some (Int32.ofInt n) else none

theorem decimal_parse_print (i : Int32) : decimal.parse (decimal.print i) = some i := by
  have hrange : -2 ^ 31 ≤ i.toInt ∧ i.toInt < 2 ^ 31 := ⟨i.le_toInt, i.toInt_lt⟩
  show ((i.toInt.repr.toInt?).bind fun n =>
    if -2 ^ 31 ≤ n ∧ n < 2 ^ 31 then some (Int32.ofInt n) else none) = some i
  rw [Int.toInt?_repr, Option.bind_some, if_pos hrange, Int32.ofInt_toInt]

/-- The text of one map of sequences and of what is in it; other text is plain. -/
def blockStyle : Yaml where
  load text :=
    if text = "a:\n  - 1\n  - 2" then
      some (.map [("a", .sequence [.scalar "1", .scalar "2"])])
    else if text = "- 1\n- 2" then some (.sequence [.scalar "1", .scalar "2"])
    else some (.scalar text)
  emit
    | .map _ => "a:\n  - 1\n  - 2"
    | .sequence _ => "- 1\n- 2"
    | .scalar text => text
    | .null => "~"
  nullText := some "null"

theorem blockStyle_returns_scalar {text : String} (hmap : text ≠ "a:\n  - 1\n  - 2")
    (hsequence : text ≠ "- 1\n- 2") : Returns blockStyle (.scalar text) := by
  refine .intro ?_ fun _ hm => absurd hm List.not_mem_nil
  exact (if_neg hmap).trans (if_neg hsequence)

def settingsKind : Kind true :=
  kind blockStyle decimal ⟨fun _ xs => xs, .refl⟩ (.map (.vector .int))

def settings : settingsKind.Val := ⟨[("a", [(1 : Int32), (2 : Int32)])], List.pairwise_singleton _ _⟩

theorem lexicalCast_roundTrips_block :
    settingsKind.toString settings = some "a:\n  - 1\n  - 2" ∧
      settingsKind.fromString "a:\n  - 1\n  - 2" = some settings := by
  have hsequence : Returns blockStyle (.sequence [.scalar "1", .scalar "2"]) := by
    refine .intro rfl ?_
    intro m hm
    rcases List.mem_pair.mp hm with rfl | rfl
    · exact blockStyle_returns_scalar (by decide) (by decide)
    · exact blockStyle_returns_scalar (by decide) (by decide)
  have hreturns : Returns blockStyle (settingsKind.node settings) := by
    refine .intro rfl ?_
    intro m hm
    rw [List.mem_singleton.mp hm]
    exact hsequence
  have htext : settingsKind.toString settings = some "a:\n  - 1\n  - 2" := rfl
  obtain ⟨w, hw, _, heq⟩ := lexicalCast_roundTrips _ decimal_parse_print (fun _ => rfl)
    (.map (.vector .int)) settings hreturns
  refine ⟨htext, ?_⟩
  rw [← heq rfl]
  exact hw

end Sylar.Config
