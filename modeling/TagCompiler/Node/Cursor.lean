import TagCompiler.Node.Match
/-!
A cursor over sibling nodes.

The index is an integer of 64 bits that may lie outside the sequence; a new cursor stands before
the first element. Moving beyond the range of the index is refused.
-/

namespace TagCompiler

structure Cursor where
  nodes : List Node
  index : Int

namespace Cursor

def ofList (nodes : List Node) : Cursor := ⟨nodes, -1⟩

/-- A cursor over the elements of a node. -/
def ofNode (n : Node) : Cursor := ofList n.children

/-- Whether `i` is in the range of an index. -/
def inRange (i : Int) : Bool := -0x8000000000000000 ≤ i && i < 0x8000000000000000

def isElement (c : Cursor) (i : Int) : Bool := 0 ≤ i && i < c.nodes.length

def at? (c : Cursor) (i : Int) : Option Node :=
  if 0 ≤ i && inRange i then c.nodes[i.toNat]? else none

/-- Moves to `i`; says whether an element stands there. -/
def seek (c : Cursor) (i : Int) : Bool × Cursor := (c.isElement i, { c with index := i })

/-- Moves by `step`; out of the range of an index nothing moves. -/
def advance (c : Cursor) (step : Int) : Bool × Cursor :=
  if inRange (c.index + step) then c.seek (c.index + step) else (false, c)

def peek? (c : Cursor) (offset : Int) : Option Node := c.at? (c.index + offset)

def current? (c : Cursor) : Option Node := c.peek? 0

def previous? (c : Cursor) : Option Node := c.peek? (-1)

def next? (c : Cursor) : Option Node := c.peek? 1

/-- The first element that matches, from the current place on, among at most `limit` elements. -/
def findIndex? (c : Cursor) (type : Option String) (fields : Option FieldPattern)
    (limit : Option Nat) : Option Nat :=
  let start := c.index.toNat
  let ahead := c.nodes.drop start
  let window := limit.elim ahead ahead.take
  (window.findIdx? (·.fits type fields)).map (start + ·)

def find? (c : Cursor) (type : Option String) (fields : Option FieldPattern)
    (limit : Option Nat) : Option Node :=
  (c.findIndex? type fields limit).bind (c.nodes[·]?)

end Cursor
end TagCompiler
