import TagFilter.Json.Record
import TagFilter.Locality.Tracing

/-! # Locality reports

A report is the tree of all paths that were counted. Each node has its label,
the label above it, and the percentage of the identifiers that visited it. The
children of a node stand in the order of their labels.
-/
namespace TagFilter

structure ReportNode where
  name : String
  parent : Option String
  value : Float

/-- A node with the forest of its children. -/
structure Report where
  root : ReportNode
  children : Forest ReportNode

namespace Report

/-- Gives the node at the end of a path its value. Nodes on the way that are not
there yet are added with the value zero. -/
def insertBelow (value : Float) : String → List String → Forest ReportNode → Forest ReportNode
  | _, [], children => children
  | parent, name :: rest, children =>
    children.upsert (fun node => node.name = name) ⟨name, some parent, 0⟩ fun node below =>
      if rest = [] then ({ node with value }, below)
      else (node, insertBelow value name rest below)

def insert (path : List String) (value : Float) (report : Report) : Report :=
  { report with children := insertBelow value report.root.name path report.children }

def percentage (count samples : Nat) : Float :=
  if samples = 0 then 0 else 100 * Float.ofNat count / Float.ofNat samples

/-- The tree of everything that was counted. -/
def ofVisits (m : LocalityMap) : Report :=
  let root : ReportNode := ⟨LocalityMap.entryLabel, none, if m.samples = 0 then 0 else 100⟩
  m.counts.foldl (fun report entry => report.insert entry.1 (percentage entry.2 m.samples))
    ⟨root, .nil⟩

/-- Replays identifiers and reports where they went. -/
def analyze (engine : Engine) (ids : List Identifier) : Report :=
  ofVisits (LocalityMap.trace engine ids)

/-- The node reached by following names from a report. -/
def find? : List String → Report → Option Report
  | [], report => some report
  | name :: rest, report =>
    (report.children.findRoot? fun node => node.name = name).bind fun (node, children) =>
      find? rest ⟨node, children⟩

def nodeMembers (node : ReportNode) : List (String × Json.Value) :=
  [("name", .ofText node.name), ("parent", .ofTextOption node.parent),
    ("value", .ofFloat node.value)]

/-- A node without children has no such member. -/
def withChildren (node : ReportNode) (children : List Json.Value) : Json.Value :=
  .record (nodeMembers node ++ if children.isEmpty then [] else [("children", .array children)])

def childrenToJson : Forest ReportNode → List Json.Value
  | .nil => []
  | .node node children rest =>
    withChildren node (childrenToJson children) :: childrenToJson rest

def toJson (report : Report) : Json.Value :=
  withChildren report.root (childrenToJson report.children)

/-- Reads a report nested to at most the given depth. -/
def ofJsonWithin : Nat → Json.Value → Option Report
  | 0, _ => none
  | depth + 1, value => do
    let [name, parent, value, children] ←
      value.fields? ["name", "parent", "value", "children"] | none
    let name ← (← name).text?
    let parent ← match parent with
      | some parent => parent.textOption?
      | none => some none
    let value ← (← value).float?
    let children ← match depth, children with
      | _, none => some []
      | inner + 1, some (.array items) => items.mapM (ofJsonWithin inner)
      | _, some _ => none
    return ⟨⟨name, parent, value⟩,
      Forest.ofSiblings (children.map fun child => (child.root, child.children))⟩

def ofJson? (value : Json.Value) : Option Report := ofJsonWithin Json.depthLimit value

end Report
end TagFilter
