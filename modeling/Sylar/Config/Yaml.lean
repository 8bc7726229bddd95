/-
# Sylar.Config.Yaml — trees of `yaml-cpp`, as the configuration code uses them.

A `Node` is a tree; a key of a map is what `Scalar()` gives for it.  The accessors are those of
`YAML::Node` that `sylar/config.cc` and `sylar/log.cc` call, and `none` is an exception.  Reading and
writing text is the library's own business and a parameter (`Yaml`).
-/
import Mathlib.Data.String.Basic

namespace Sylar.Config

/-- `YAML::Node`. -/
inductive Node
  | null
  | scalar (text : String)
  | sequence (items : List Node)
  | map (entries : List (String × Node))
  deriving Repr

/-- The text side of `yaml-cpp`. -/
structure Yaml where
  /-- `YAML::Load`. -/
  load : String → Option Node
  /-- `ss << node`. -/
  emit : Node → String
  /-- `as<std::string>()` of a null node. -/
  nullText : Option String

namespace Node

/-- `Scalar()`. -/
def text : Node → String
  | .scalar text => text
  | .null | .sequence _ | .map _ => ""

/-- `IsScalar()`. -/
def isScalar : Node → Bool
  | .scalar _ => true
  | .null | .sequence _ | .map _ => false

/-- `size()`. -/
def size : Node → Nat
  | .sequence items => items.length
  | .map entries => entries.length
  | .null | .scalar _ => 0

/-- `node[key]`; the inner `none` is a node that is not defined. -/
def get (key : String) : Node → Option (Option Node)
  | .scalar _ => none
  | .map entries => some ((entries.find? fun e => e.1 = key).map Prod.snd)
  | .null | .sequence _ => some none

/-- `node[i]`. -/
def item (i : Nat) : Node → Option (Option Node)
  | .sequence items => some items[i]?
  | n => n.get (toString i)

/-- `as<std::string>()`. -/
def asString (yaml : Yaml) : Node → Option String
  | .scalar text => some text
  | .null => yaml.nullText
  | .sequence _ | .map _ => none

/-- What a node is behind assignments of its keys: a map, if there were any. -/
def ofEntries (entries : List (String × Node)) : Node := if entries = [] then .null else .map entries

/-- What a node is behind `push_back`s. -/
def ofItems (items : List Node) : Node := if items = [] then .null else .sequence items

end Node

/-- Where every round of a loop succeeds, the whole does. -/
theorem mapM_eq_some {α β : Type} {f : α → Option β} {k : α → β} :
    ∀ {xs : List α}, (∀ a ∈ xs, f a = some (k a)) → xs.mapM f = some (xs.map k)
  | [], _ => rfl
  | a :: xs, h => by
      have ih : xs.mapM f = some (xs.map k) :=
        mapM_eq_some fun b hb => h b (List.mem_cons_of_mem a hb)
      rw [List.mapM_cons, h a List.mem_cons_self, ih]
      rfl

end Sylar.Config
