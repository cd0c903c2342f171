import Mathlib.Data.List.Basic
import Stok.Util.Json

/-!
# The node vector of a JSON document

`JsonDoc` keeps its nodes in one vector, in the order in which they begin in the text. A container
names its first child and every child the next one, by indices of 32 bits of which the largest,
`kNone`, is no index. `docValue` and `docItems` are `parse_value` and its loop on the vector; what
they read of the text between two children is read by the functions of the tree parser.
-/

namespace Stok.Json

/-- `JsonDoc::Type` -/
inductive DocType where
  | null | bool | number | string | array | object
  deriving DecidableEq, Repr

def kNone : UInt32 := .ofNat (2 ^ 32 - 1)

/-- `JsonDoc::Node` -/
structure DocNode (F : Type) where
  type : DocType := .null
  boolean : Bool := false
  firstChild : UInt32 := kNone
  nextSibling : UInt32 := kNone
  count : UInt32 := 0
  key : Bytes := []
  raw : Bytes := []
  number : F

section

variable {F : Type} [Dbl F]

def DocNode.blank : DocNode F := { number := Dbl.ofRat 0 }

/-- The node of a value that is no container. -/
def scalarNode : Node F → DocNode F
  | .bool b => { type := .bool, boolean := b, number := Dbl.ofRat 0 }
  | .number raw v => { type := .number, raw := raw, number := v }
  | .string raw => { type := .string, raw := raw, number := Dbl.ofRat 0 }
  | _ => .blank

/-- A container before its children. -/
def containerNode (isObj : Bool) : DocNode F :=
  { type := if isObj then .object else .array, number := Dbl.ofRat 0 }

/-- Why `parse` returned false; nothing when a node got the index that is none. -/
abbrev DocError := Option Error

def docFail {α : Type} (msg : String) (rest : Bytes) : Except DocError α := .error (some ⟨lit msg, rest.length⟩)

/-- A new child `child` of the container at `idx`, after the child at `prev`. -/
def link (nodes : List (DocNode F)) (idx prev child : UInt32) : List (DocNode F) :=
  if prev = kNone then nodes.modify idx.toNat fun n => { n with firstChild := child }
  else nodes.modify prev.toNat fun n => { n with nextSibling := child }

mutual

/-- One value: its index, the text after it and the nodes. -/
def docValue : Nat → Nat → Bytes → List (DocNode F) →
    Except DocError (UInt32 × Bytes × List (DocNode F))
  | 0, _, s, _ => docFail "out of fuel" s
  | fuel + 1, depth, s, nodes =>
    if 256 < depth then docFail "nesting too deep" s
    else
      match skipWs s with
      | [] => docFail "unexpected end" []
      | c :: t =>
        let idx := UInt32.ofNat nodes.length
        if c = ch '{' ∨ c = ch '[' then
          let isObj := decide (c = ch '{')
          let nodes := nodes ++ [containerNode isObj]
          if (skipWs t).head? = some (closing isObj) then .ok (idx, (skipWs t).tail, nodes)
          else
            (docItems isObj fuel depth idx kNone (skipWs t) nodes).map fun (rest, nodes) =>
              (idx, rest, nodes)
        else
          match parseScalar (c :: t) with
          | .error e => .error (some e)
          | .ok (n, rest) => .ok (idx, rest, nodes ++ [scalarNode n])

/-- The children of the container at `idx` that follow the one at `prev`. -/
def docItems (isObj : Bool) : Nat → Nat → UInt32 → UInt32 → Bytes → List (DocNode F) →
    Except DocError (Bytes × List (DocNode F))
  | 0, _, _, _, s, _ => docFail "out of fuel" s
  | fuel + 1, depth, idx, prev, s, nodes =>
    match if isObj then parseKey s else .ok ([], s) with
    | .error e => .error (some e)
    | .ok (key, s) =>
      match docValue fuel (depth + 1) s nodes with
      | .error e => .error e
      | .ok (child, s, nodes) =>
        if child = kNone then .error none
        else
          let nodes := nodes.modify child.toNat fun n => { n with key := key }
          let nodes := link nodes idx prev child
          let nodes := nodes.modify idx.toNat fun n => { n with count := n.count + 1 }
          match skipWs s with
          | [] => docFail "unexpected end in container" []
          | c :: rest =>
            if c = ch ',' then docItems isObj fuel depth idx child rest nodes
            else if c = closing isObj then .ok (rest, nodes)
            else docFail "expected ',' or close" (c :: rest)

end

/-- `JsonDoc::parse`: the nodes when it returns true. -/
def parseDoc (text : Bytes) : Except DocError (List (DocNode F)) :=
  let s := if 3 ≤ text.length ∧ text.head? = some 0xEF then text.drop 3 else text
  match docValue (2 * text.length + 2) 0 (skipWs s) [] with
  | .error e => .error e
  | .ok (root, rest, nodes) =>
    if root = kNone then .error none
    else if (skipWs rest).isEmpty then .ok nodes
    else docFail "trailing characters" (skipWs rest)

/-! ## Reading -/

/-- The nodes from an index on along `next_sibling`; nothing when the loop leaves the vector or
goes on for more than `fuel` nodes. -/
def siblings (nodes : List (DocNode F)) : Nat → UInt32 → Option (List (DocNode F))
  | 0, c => if c = kNone then some [] else none
  | fuel + 1, c =>
    if c = kNone then some []
    else
      match nodes[c.toNat]? with
      | some n => (siblings nodes fuel n.nextSibling).map (n :: ·)
      | none => none

/-- The nodes that `for_each` visits. -/
def forEach (nodes : List (DocNode F)) (parent : DocNode F) : Option (List (DocNode F)) :=
  siblings nodes nodes.length parent.firstChild

/-- A node that holds text, as the readers of text take it. -/
def DocNode.leaf (n : DocNode F) : Option (Node F) :=
  match n.type with
  | .number => some (.number n.raw n.number)
  | .string => some (.string n.raw)
  | _ => none

def DocNode.str (n : DocNode F) : Bytes := Json.str n.leaf

def DocNode.i64 (n : DocNode F) : Int := Json.i64 n.leaf

def DocNode.u64 (n : DocNode F) : Nat := Json.u64 n.leaf

end

end Stok.Json
