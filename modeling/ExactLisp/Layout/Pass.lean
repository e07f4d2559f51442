import ExactLisp.Layout.Token

/-!
# Passes

A pass is shown every node of a tree, each before its children, and may replace it.
It also learns the kind of the aggregate that holds the node and how many
aggregates are above it. The children it is shown next are those of the
replacement.
-/

namespace ExactLisp.Layout

/-- An edit of nodes, by the kind of the parent and the number of nodes above. -/
abbrev Pass := Option Kind → Nat → Token → Token

namespace Pass

/-- A pass that edits the children of aggregates and leaves atoms alone. -/
def ofChildren (edit : Kind → List Token → List Token) : Pass
  | _, _, .aggregate kind children => .aggregate kind (edit kind children)
  | _, _, t => t

/-- Show a pass the nodes of a tree down to a number of levels. -/
def walkWithin (pass : Pass) : Nat → Option Kind → Nat → Token → Token
  | 0, _, _, t => t
  | levels + 1, parent, depth, t =>
    match pass parent depth t with
    | .aggregate kind children =>
      .aggregate kind (children.map (walkWithin pass levels (some kind) (depth + 1)))
    | t => t

/-- Show a pass all nodes of a tree; a pass that adds levels is not shown what is in them. -/
def walk (pass : Pass) (t : Token) : Token := walkWithin pass t.height none 0 t

/-- Run passes one after the other, each over the whole tree. -/
def runAll (passes : List Pass) (t : Token) : Token := passes.foldl (fun t pass => walk pass t) t

end Pass

/-- A node as a pass is shown it. -/
structure Visit where
  parent : Option Kind
  depth : Nat
  node : Token

mutual

/-- The nodes of a tree in the order in which a pass is shown them. -/
def visits (parent : Option Kind) (depth : Nat) (t : Token) : List Visit :=
  match t with
  | .atom text lineBreak => [⟨parent, depth, .atom text lineBreak⟩]
  | .aggregate kind children =>
    ⟨parent, depth, .aggregate kind children⟩ :: allVisits (some kind) (depth + 1) children

/-- The nodes of some trees, one tree after the other. -/
def allVisits (parent : Option Kind) (depth : Nat) : List Token → List Visit
  | [] => []
  | t :: rest => visits parent depth t ++ allVisits parent depth rest

end

end ExactLisp.Layout
