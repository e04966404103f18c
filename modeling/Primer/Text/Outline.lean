/-!
# Outlines

A tree of texts, drawn with one node on a line. The root stands alone on the
first line. Every other node stands after a fork that ties it to the line of
its parent's children, and under it that line goes on only if more children
follow. So a node's level and whether it is the last of its siblings can both
be read off the start of its line.

The drawing never looks into the texts. A text with line ends in it takes
several lines, of which only the first is placed.
-/

namespace Primer.Text

/-- **A tree of texts.** -/
inductive Outline where
  /-- A text and what stands below it. -/
  | node (text : String) (children : List Outline)

namespace Outline

/-- What ties a node to its siblings. -/
def fork (last : Bool) : String := if last then "└─ " else "├─ "

/-- What stands under the fork on the lines of a node's descendants. -/
def rail (last : Bool) : String := if last then "   " else "│  "

mutual

/-- The lines of a node that is not the root, each after `lead`. -/
def branchLines (lead : String) (last : Bool) : Outline → List String
  | node text children =>
    (lead ++ fork last ++ text) :: forestLines (lead ++ rail last) children

/-- The lines of the children of one node, each after `lead`. -/
def forestLines (lead : String) : List Outline → List String
  | [] => []
  | child :: others =>
    child.branchLines lead others.isEmpty ++ forestLines lead others

end

/-- **The lines of an outline**, the root's first. -/
def lines : Outline → List String
  | node text children => text :: forestLines "" children

/-- An outline as text, each line ended by a line feed. -/
def render (o : Outline) : String := String.join (o.lines.map (· ++ "\n"))

end Outline

end Primer.Text
