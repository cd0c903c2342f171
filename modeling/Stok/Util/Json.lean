import Stok.Core.Dbl
import Stok.Util.Text

/-!
# The JSON reader

`JsonDoc` of `util/json.cpp`. A document is a tree of nodes; strings and numbers keep their
raw text. The parser works on the text that is left, so that an error is found at the
offset where that text begins. The children of a container keep their raw keys, which are
empty in an array.
-/

namespace Stok.Json

inductive Node (F : Type) where
  | null
  | bool (b : Bool)
  | number (raw : Bytes) (v : F)
  | string (raw : Bytes)
  | array (children : List (Bytes × Node F))
  | object (children : List (Bytes × Node F))

/-- What went wrong, and how many bytes were left there. -/
structure Error where
  msg : Bytes
  left : Nat
  deriving DecidableEq, Repr

def isWs (c : UInt8) : Bool := c == 32 || c == 10 || c == 13 || c == 9

def skipWs (s : Bytes) : Bytes := s.dropWhile isWs

/-- Looks for the closing quote, `cur` being what was read, in reverse, since the last place
to which a backslash can reach. A quote after an odd number of backslashes is escaped. -/
def scanStringEnd : Bytes → Bytes → Option (Bytes × Bytes)
  | _, [] => none
  | cur, c :: s =>
    if c = ch '"' then
      if (cur.takeWhile (· == ch '\\')).length % 2 = 0 then some (cur.reverse, s)
      else (scanStringEnd [] s).map fun (raw, rest) => (cur.reverse ++ c :: raw, rest)
    else scanStringEnd (c :: cur) s

/-- A byte that continues a number. -/
def isNumByte (d : UInt8) : Bool :=
  isDigit d || d == ch '.' || d == ch 'e' || d == ch 'E' || d == ch '+' || d == ch '-'

section

variable {F : Type} [Dbl F]

def fail {α : Type} (msg : String) (rest : Bytes) : Except Error α := .error ⟨lit msg, rest.length⟩

/-- A value that is no container. -/
def parseScalar (s : Bytes) : Except Error (Node F × Bytes) :=
  match s with
  | [] => fail "unexpected end" s
  | c :: t =>
    if c = ch '"' then
      match scanStringEnd [] t with
      | none => fail "unterminated string" s
      | some (raw, rest) => .ok (.string raw, rest)
    else if s.take 4 = lit "true" then .ok (.bool true, s.drop 4)
    else if s.take 5 = lit "false" then .ok (.bool false, s.drop 5)
    else if s.take 4 = lit "null" then .ok (.null, s.drop 4)
    else if c = ch '-' ∨ isDigit c then
      let raw := c :: t.takeWhile isNumByte
      match Dbl.fromCharsDbl (F := F) raw with
      | none => fail "bad number" s
      | some v => .ok (.number raw v, t.dropWhile isNumByte)
    else fail "unexpected character" s

/-- The key of an object's member, up to its colon. -/
def parseKey (s : Bytes) : Except Error (Bytes × Bytes) :=
  match skipWs s with
  | 34 :: t =>
    match scanStringEnd [] t with
    | none => fail "unterminated key" (34 :: t)
    | some (key, rest) =>
      match skipWs rest with
      | 58 :: rest => .ok (key, rest)
      | rest => fail "expected ':'" rest
  | s => fail "expected key" s

def closing (isObj : Bool) : UInt8 := if isObj then ch '}' else ch ']'

mutual

/-- One value at a nesting depth, with at most `fuel` nested calls. -/
def parseValue : Nat → Nat → Bytes → Except Error (Node F × Bytes)
  | 0, _, s => fail "out of fuel" s
  | fuel + 1, depth, s =>
    if 256 < depth then fail "nesting too deep" s
    else
      match skipWs s with
      | [] => fail "unexpected end" []
      | c :: t =>
        if c = ch '{' ∨ c = ch '[' then
          let isObj := decide (c = ch '{')
          let node := if isObj then Node.object else Node.array
          if (skipWs t).head? = some (closing isObj) then .ok (node [], (skipWs t).tail)
          else (parseItems isObj fuel depth (skipWs t)).map fun (cs, rest) => (node cs, rest)
        else parseScalar (c :: t)

/-- The members or elements of a container, up to its closing bracket. -/
def parseItems (isObj : Bool) : Nat → Nat → Bytes →
    Except Error (List (Bytes × Node F) × Bytes)
  | 0, _, s => fail "out of fuel" s
  | fuel + 1, depth, s => do
    let (key, s) ← if isObj then parseKey s else .ok ([], s)
    let (child, s) ← parseValue fuel (depth + 1) s
    match skipWs s with
    | [] => fail "unexpected end in container" []
    | c :: rest =>
      if c = ch ',' then
        let (cs, rest) ← parseItems isObj fuel depth rest
        .ok ((key, child) :: cs, rest)
      else if c = closing isObj then .ok ([(key, child)], rest)
      else fail "expected ',' or close" (c :: rest)

end

/-- A whole text, without the byte-order mark it may begin with. -/
def parse (text : Bytes) : Except Error (Node F) :=
  let s := if 3 ≤ text.length ∧ text.head? = some 0xEF then text.drop 3 else text
  match parseValue (2 * text.length + 2) 0 (skipWs s) with
  | .error e => .error e
  | .ok (root, rest) => if (skipWs rest).isEmpty then .ok root
      else fail "trailing characters" (skipWs rest)

/-- The text that `error()` returns. -/
def Error.text (e : Error) (text : Bytes) : Bytes :=
  e.msg ++ lit " at offset " ++ Dbl.digits (text.length - e.left)

/-! ## Reading a document -/

def get (n : Node F) (key : Bytes) : Option (Node F) :=
  match n with
  | .object cs => cs.lookup key
  | _ => none

/-- The children that `for_each` visits. -/
def children : Node F → List (Node F)
  | .object cs => cs.map (·.2)
  | .array cs => cs.map (·.2)
  | _ => []

def hexVal (h : UInt8) : Option Nat :=
  if isDigit h then some (h.toNat - 48)
  else if ch 'a' ≤ h ∧ h ≤ ch 'f' then some (h.toNat - 97 + 10)
  else if ch 'A' ≤ h ∧ h ≤ ch 'F' then some (h.toNat - 65 + 10)
  else none

def hex4 (a b c d : UInt8) : Option Nat := do
  let a ← hexVal a
  let b ← hexVal b
  let c ← hexVal c
  let d ← hexVal d
  some (((a * 16 + b) * 16 + c) * 16 + d)

/-- The low half of a surrogate pair, when the text goes on with one. -/
def lowSurrogate : Bytes → Option Nat
  | 92 :: 117 :: a :: b :: c :: d :: _ =>
    (hex4 a b c d).filter fun lo => 0xDC00 ≤ lo ∧ lo ≤ 0xDFFF
  | _ => none

/-- The byte of an escape other than `\u`. -/
def escaped (e : UInt8) : UInt8 :=
  if e = ch 'n' then 10
  else if e = ch 't' then 9
  else if e = ch 'r' then 13
  else if e = ch 'b' then 8
  else if e = ch 'f' then 12
  else e

/-- `skip` bytes of the text belong to an escape that was read already. -/
def unescapeFrom : Nat → Bytes → Bytes
  | _, [] => []
  | skip + 1, _ :: s => unescapeFrom skip s
  | 0, 92 :: 117 :: a :: b :: c :: d :: s =>
    match hex4 a b c d with
    | none => ch '?' :: unescapeFrom 1 (117 :: a :: b :: c :: d :: s)
    | some cp =>
      if 0xD800 ≤ cp ∧ cp ≤ 0xDBFF then
        match lowSurrogate s with
        | some lo => Text.utf8 (0x10000 + (cp - 0xD800) * 1024 + (lo - 0xDC00)) ++
            unescapeFrom 11 (117 :: a :: b :: c :: d :: s)
        | none => Text.utf8 cp ++ unescapeFrom 5 (117 :: a :: b :: c :: d :: s)
      else Text.utf8 cp ++ unescapeFrom 5 (117 :: a :: b :: c :: d :: s)
  | 0, 92 :: e :: s =>
    (if e = ch 'u' then ch '?' else escaped e) :: unescapeFrom 1 (e :: s)
  | 0, c :: s => c :: unescapeFrom 0 s

def unescape (raw : Bytes) : Bytes := unescapeFrom 0 raw

/-- The value of a string node, nothing for any other. -/
def str (n : Option (Node F)) : Bytes :=
  match n with
  | some (.string raw) => if ch '\\' ∈ raw then unescape raw else raw
  | _ => []

def num (n : Option (Node F)) (dflt : F) : F :=
  match n with
  | some (.number _ v) => v
  | some (.string raw) => (Dbl.fromCharsDbl raw).getD dflt
  | _ => dflt

/-- The raw text of a number or a string. -/
def rawText : Option (Node F) → Option Bytes
  | some (.number raw _) => some raw
  | some (.string raw) => some raw
  | _ => none

/-- An integer read without rounding; through the number when it does not fit. -/
def integer (lo hi : Int) (n : Option (Node F)) : Int :=
  match rawText n with
  | none => 0
  | some raw =>
    match fromChars lo hi raw with
    | some (v, _) => v
    | none => (Dbl.toRat (num n (Dbl.ofRat 0))).num.tdiv (Dbl.toRat (num n (Dbl.ofRat 0))).den

/-- `i64` with the default it is called with. -/
def i64 : Option (Node F) → Int := integer (-2 ^ 63) (2 ^ 63 - 1)

/-- `u64` with the default it is called with. -/
def u64 (n : Option (Node F)) : Nat := (integer 0 (2 ^ 64 - 1) n).toNat

end

end Stok.Json
