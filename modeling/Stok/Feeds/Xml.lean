import Stok.Core.Ascii

/-!
# Scanning feeds (`feeds/xml.hpp`)

Tags are found by their names, without a tree. A position is an index into the document.
-/

namespace Stok.Xml

/-- The character after a tag's name ends the name. -/
def nameEnd (c : UInt8) : Bool := c == ch '>' || c == ch '/' || isSpace c

/-- The first occurrence of `name` at or after `pos` that `ok` accepts. -/
def findName (doc name : Bytes) (pos : Nat) (ok : Nat → Bool) : Option Nat :=
  (List.range' pos (doc.length + 1 - pos)).find? fun p => name.isPrefixOf (doc.drop p) && ok p

/-- The next opening tag `<name` at or after `start`. -/
def findOpen (doc name : Bytes) (start : Nat) : Option Nat :=
  (findName doc name (start + 1) fun p =>
    let after := p + name.length
    byteAt doc (p - 1) == ch '<' && after < doc.length && nameEnd (byteAt doc after)).map (· - 1)

/-- The next closing tag `</name>` at or after `start`. -/
def findClose (doc name : Bytes) (start : Nat) : Option Nat :=
  (findName doc name (start + 2) fun p =>
    let after := p + name.length
    byteAt doc (p - 2) == ch '<' && byteAt doc (p - 1) == ch '/' && after < doc.length &&
      (byteAt doc after == ch '>' || isSpace (byteAt doc after))).map (· - 2)

/-- An element that was found: its attributes, its raw content and the index after it. -/
structure Element where
  attrs : Bytes
  inner : Bytes
  stop : Nat
  deriving DecidableEq, Repr

/-- The closing tag of an element, those in CDATA sections left out. -/
def closeFrom (doc name : Bytes) : Nat → Nat → Option Nat
  | 0, _ => none
  | fuel + 1, pos =>
    match findClose doc name pos with
    | none => none
    | some close =>
      match find (lit "<![CDATA[") (doc.take close) pos with
      | none => some close
      | some cdata =>
        match find (lit "]]>") doc (cdata + 9) with
        | none => none
        | some ce => closeFrom doc name fuel (ce + 3)

/-- The next element of a name at or after `start`. -/
def nextElement (doc name : Bytes) (start : Nat) : Option Element := do
  let lt ← findOpen doc name start
  let gt ← find [ch '>'] doc lt
  let attrB := lt + 1 + name.length
  let attrs := (doc.drop attrB).take (gt - attrB)
  if byteAt doc (gt - 1) = ch '/' then some { attrs := attrs.dropLast, inner := [], stop := gt + 1 }
  else
    let close ← closeFrom doc name doc.length (gt + 1)
    some
      { attrs := attrs
        inner := (doc.drop (gt + 1)).take (close - gt - 1)
        stop := match find [ch '>'] doc close with
          | some te => te + 1
          | none => doc.length }

def elementsFrom (doc name : Bytes) : Nat → Nat → List Element
  | 0, _ => []
  | fuel + 1, pos =>
    match nextElement doc name pos with
    | none => []
    | some e => e :: elementsFrom doc name fuel e.stop

/-- The elements that `for_each_item` and `for_each_element` visit. -/
def elements (doc name : Bytes) : List Element := elementsFrom doc name (doc.length + 1) 0

/-- The raw content of the first element of a name. -/
def childText (doc name : Bytes) : Bytes :=
  match nextElement doc name 0 with
  | some e => e.inner
  | none => []

def attrFrom (attrs attr : Bytes) : Nat → Nat → Bytes
  | 0, _ => []
  | fuel + 1, pos =>
    match find attr attrs pos with
    | none => []
    | some p =>
      let leftOk := p = 0 ∨ isSpace (byteAt attrs (p - 1))
      let r := (attrs.drop (p + attr.length)).dropWhile isSpace
      let v := (r.drop 1).dropWhile isSpace
      if leftOk ∧ r.head? = some (ch '=') ∧ (v.head? = some (ch '"') ∨ v.head? = some (ch '\'')) then
        match find (v.take 1) v 1 with
        | some e => (v.take e).drop 1
        | none => []
      else attrFrom attrs attr fuel (p + 1)

/-- The value of an attribute, without its quotes. -/
def attrValue (attrs attr : Bytes) : Bytes := attrFrom attrs attr attrs.length 0

/-- The content of a text that is one CDATA section, and whether it is one. -/
def unwrapCdata (raw : Bytes) : Bytes × Bool :=
  let t := trim raw
  if 12 ≤ t.length ∧ t.take 9 = lit "<![CDATA[" ∧ t.drop (t.length - 3) = lit "]]>" ∧
      find (lit "]]>") t 9 = some (t.length - 3) then
    ((t.drop 9).take (t.length - 12), true)
  else (raw, false)

end Stok.Xml
