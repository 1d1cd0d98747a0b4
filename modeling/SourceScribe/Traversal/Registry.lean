import SourceScribe.Grammar.Rules

/-!
# Visitors and their registry

A visitor says whether a node may be entered and how it is written. A
registry has at most one visitor for every kind.
-/

namespace SourceScribe

/-- When a node may be entered. -/
inductive Guard where
  /-- When it has not been entered before. -/
  | once
  /-- Always. -/
  | always
  /-- Never. -/
  | never
  /-- When a test of the node, with the nodes entered before, says so. -/
  | tested (test : NodeId → Array NodeId → Bool)

/-- Whether a node may be entered after the given ones. -/
def Guard.admits (visited : Array NodeId) (id : NodeId) : Guard → Bool
  | .once => !visited.contains id
  | .always => true
  | .never => false
  | .tested test => test id visited

/-- When nodes are entered and how they are written. -/
structure Visitor where
  /-- When a node may be entered. -/
  guard : Guard := .once
  /-- How a node is written. -/
  rule : Rule

namespace Visitor

/-- The visitor that the grammar has for a kind. -/
def standard (tag : Tag) : Visitor := { rule := Grammar.rule tag }

/-- The visitor that writes the children of a node and nothing else. -/
def plain (guard : Guard) : Visitor := { guard := guard, rule := fun s => Script.plain s.children }

end Visitor

/-- The visitors by kind. -/
structure Registry where
  /-- The visitor of a kind, if there is one. -/
  find? : Tag → Option Visitor

namespace Registry

/-- No visitors. -/
def empty : Registry := ⟨fun _ => none⟩

/-- The visitors of the grammar. -/
def standard : Registry := ⟨fun tag => some (.standard tag)⟩

/-- Makes a visitor the one of a kind. -/
def install (r : Registry) (tag : Tag) (visitor : Visitor) : Registry :=
  ⟨fun t => if t = tag then some visitor else r.find? t⟩

/-- The kinds that have a visitor, in declared order. -/
def tags (r : Registry) : List Tag := Tag.all.filter fun t => (r.find? t).isSome

/-- The kinds that have no visitor, in declared order. -/
def missing (r : Registry) : List Tag := Tag.all.filter fun t => (r.find? t).isNone

/-- Whether every kind has a visitor. -/
def isComplete (r : Registry) : Bool := r.missing.isEmpty

/-- The number of kinds that have a visitor. -/
def size (r : Registry) : Nat := r.tags.length

/-- How a registry is shown. -/
def describe (r : Registry) : String :=
  "VisitorRegistry \x7b tags: [" ++ String.intercalate ", " (r.tags.map Tag.name) ++ "] \x7d"

end Registry

end SourceScribe
