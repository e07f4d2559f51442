import ExactLisp.Layout.Passes
import ExactLisp.Layout.Tree
import ExactLisp.Layout.Writer

/-!
# Formatting

To format a text is to build its tree, run the passes over it, and write it. A text
that nests too deeply for a tree is left as it is.
-/

namespace ExactLisp.Layout

/-- The tree of a text after some passes. -/
def treeWith (passes : List Pass) (text : String) : Except ReadFault Token :=
  match Token.ofText text with
  | .ok t => .ok (Pass.runAll passes t)
  | .error fault => .error fault

/-- Format a text by some passes. -/
def formatWith (passes : List Pass) (text : String) : String :=
  match treeWith passes text with
  | .ok t => t.write
  | .error _ => text

/-- Format a text by the standard passes. -/
def format (text : String) : String := formatWith Pass.standard text

end ExactLisp.Layout
