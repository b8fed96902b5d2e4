/-
Circuits as they are drawn: nodes, each at its position and with its
attributes, and straight wires. Both are kept in the order in which they were
added.
-/
import Schematic.Plane

namespace Schematic

/-! ## Attributes -/

/-- The value of an attribute. -/
inductive AttrValue where
  | text (s : String)
  /-- A rotation is a number of quarter turns. -/
  | rotation (quarterTurns : Fin 4)
  deriving DecidableEq, Repr

/-- A rotation by any number of quarter turns; four of them change nothing. -/
def AttrValue.ofTurns (n : Nat) : AttrValue :=
  .rotation (Fin.ofNat 4 n)

/-- The attributes of a node: at most one value under each key. -/
structure Attrs where
  label : Option AttrValue := none
  rotation : Option AttrValue := none
  deriving DecidableEq, Repr

namespace Attrs

/-- The value under a key. -/
def get? (attrs : Attrs) : AttrKey → Option AttrValue
  | .label => attrs.label
  | .rotation => attrs.rotation

/-- Puts a value under a key, in place of the one that was there. -/
def set (attrs : Attrs) (key : AttrKey) (value : AttrValue) : Attrs :=
  match key with
  | .label => { attrs with label := some value }
  | .rotation => { attrs with rotation := some value }

/-- The attributes present, in the order of their keys. -/
def toList (attrs : Attrs) : List (AttrKey × AttrValue) :=
  [AttrKey.label, .rotation].filterMap fun key => (attrs.get? key).map (key, ·)

theorem mem_toList_iff {attrs : Attrs} {key : AttrKey} {value : AttrValue} :
    (key, value) ∈ attrs.toList ↔ attrs.get? key = some value := by
  cases key <;> simp [toList, get?]

end Attrs

/-! ## Nodes -/

/-- A node of a circuit. -/
structure Node where
  kind : NodeKind
  pos : Point
  attrs : Attrs := {}
  deriving DecidableEq, Repr

namespace Node

/-- The node with a value put under a key. -/
def withAttr (node : Node) (key : AttrKey) (value : AttrValue) : Node :=
  { node with attrs := node.attrs.set key value }

/-- The value under a key. -/
def attr? (node : Node) (key : AttrKey) : Option AttrValue :=
  node.attrs.get? key

/-- The text under the label key, if it is text. -/
def label? (node : Node) : Option String :=
  match node.attrs.label with
  | some (.text s) => some s
  | _ => none

@[simp]
theorem withAttr_kind (node : Node) (key : AttrKey) (value : AttrValue) : (node.withAttr key value).kind = node.kind :=
  rfl

@[simp]
theorem withAttr_pos (node : Node) (key : AttrKey) (value : AttrValue) : (node.withAttr key value).pos = node.pos := rfl

@[simp]
theorem label?_withAttr_label (node : Node) (s : String) : (node.withAttr .label (.text s)).label? = some s := rfl

/-- The rotation under the rotation key, if it is a rotation. -/
def rotation? (node : Node) : Option (Fin 4) :=
  match node.attrs.rotation with
  | some (.rotation turns) => some turns
  | _ => none

/-- The written form of a node: its kind, its position, and its label between
quotation marks. -/
def text (node : Node) : String :=
  node.kind.text ++ " at " ++ node.pos.text ++
    match node.label? with
    | some s => " \"" ++ s ++ "\""
    | none => ""

end Node

/-! ## Wires -/

/-- A straight wire between two points. -/
structure Wire where
  p : Point
  q : Point
  deriving DecidableEq, Repr

namespace Wire

/-- Whether a wire ends at a point. -/
def touches (w : Wire) (point : Point) : Bool :=
  w.p == point || w.q == point

def isHorizontal (w : Wire) : Bool :=
  w.p.y == w.q.y

def isVertical (w : Wire) : Bool :=
  w.p.x == w.q.x

/-- The written form of a wire. -/
def text (w : Wire) : String :=
  "wire " ++ w.p.text ++ " - " ++ w.q.text

end Wire

/-! ## Circuits -/

/-- Nodes and wires, each in the order in which they were added. -/
structure Circuit where
  nodes : Array Node := #[]
  wires : Array Wire := #[]
  deriving DecidableEq, Repr

namespace Circuit

def addNode (c : Circuit) (node : Node) : Circuit :=
  { c with nodes := c.nodes.push node }

def addWire (c : Circuit) (wire : Wire) : Circuit :=
  { c with wires := c.wires.push wire }

/-- The nodes of a kind. -/
def nodesOf (c : Circuit) (kind : NodeKind) : List Node :=
  c.nodes.toList.filter (·.kind == kind)

/-- The first node with a label. -/
def findLabel? (c : Circuit) (label : String) : Option Node :=
  c.nodes.toList.find? (·.label? == some label)

/-- The numbers of the wires that end at a point, the first wire being
number 0. -/
def touching (c : Circuit) (point : Point) : List Nat :=
  (c.wires.toList.zipIdx.filter (·.1.touches point)).map (·.2)

/-- The written form of a circuit: a line with the number of its nodes and
wires, then a line for each of them. -/
def text (c : Circuit) : String :=
  let head := "circuit: " ++ toString c.nodes.size ++ " nodes, " ++ toString c.wires.size ++ " wires\n"
  let nodes := c.nodes.toList.map fun node => "  " ++ node.text ++ "\n"
  let wires := c.wires.toList.map fun wire => "  " ++ wire.text ++ "\n"
  String.join (head :: nodes ++ wires)

end Circuit

end Schematic
