import Stok.Util.Text

/-!
# Entities and HTML

`append_decoded_entities` and `html_to_text` of `util/text.cpp`. The source walks an index
through the text; here a function takes what is left of it. The fuel of a loop is the
length of the text it is given, which every round shortens.
-/

namespace Stok.Text

/-- The named entities. -/
def kNamed : List (Bytes × Nat) :=
  [(lit "amp", 38), (lit "lt", 60), (lit "gt", 62), (lit "quot", 34), (lit "apos", 39),
   (lit "nbsp", 0xA0), (lit "rsquo", 0x2019), (lit "lsquo", 0x2018), (lit "rdquo", 0x201D),
   (lit "ldquo", 0x201C), (lit "ndash", 0x2013), (lit "mdash", 0x2014), (lit "hellip", 0x2026),
   (lit "reg", 0xAE), (lit "trade", 0x2122), (lit "copy", 0xA9), (lit "bull", 0x2022),
   (lit "middot", 0xB7), (lit "deg", 0xB0), (lit "eacute", 0xE9), (lit "euro", 0x20AC),
   (lit "pound", 0xA3), (lit "cent", 0xA2), (lit "sect", 0xA7), (lit "para", 0xB6),
   (lit "times", 0xD7), (lit "frac12", 0xBD), (lit "shy", 0xAD), (lit "ensp", 0x2002),
   (lit "emsp", 0x2003), (lit "thinsp", 0x2009), (lit "zwnj", 0x200C), (lit "zwj", 0x200D),
   (lit "iexcl", 0xA1), (lit "laquo", 0xAB), (lit "raquo", 0xBB)]

/-- A hexadecimal digit of either case. -/
def hexOf (c : UInt8) : Option Nat :=
  if isDigit c then some (c.toNat - 48)
  else if ch 'a' ≤ c ∧ c ≤ ch 'f' then some (c.toNat - 87)
  else if ch 'A' ≤ c ∧ c ≤ ch 'F' then some (c.toNat - 55)
  else none

def decOf (c : UInt8) : Option Nat := if isDigit c then some (c.toNat - 48) else none

/-- A number in a 32-bit word; `none` without digits or at a byte that is not one. -/
def codePoint (base : Nat) (digit : UInt8 → Option Nat) (ds : Bytes) : Option Nat :=
  if ds.isEmpty then none
  else ds.foldlM (fun v c => (digit c).map fun d => (v * base + d) % 2 ^ 32) 0

/-- The text between `&` and `;`, decoded. -/
def entity (body : Bytes) : Option Bytes :=
  match body with
  | [] => none
  | c :: ds =>
    if c = ch '#' then
      let cp := match ds with
        | x :: hs => if x = ch 'x' ∨ x = ch 'X' then codePoint 16 hexOf hs else codePoint 10 decOf ds
        | [] => none
      match cp with
      | some cp => if cp = 0 ∨ 0x10FFFF < cp then none else some (utf8 cp)
      | none => none
    else (kNamed.find? fun n => n.1 = body).map fun n => utf8 n.2

/-- One entity at the `&` that `s` begins with: its text and what follows. The semicolon is
at most eleven bytes away. -/
def decodeOne (s : Bytes) : Option (Bytes × Bytes) :=
  let body := ((s.take 12).drop 1).takeWhile fun c => c != ch ';' && c != ch '&' && !isSpace c
  if (s.take 12)[body.length + 1]? = some (ch ';') then
    (entity body).map fun t => (t, s.drop (body.length + 2))
  else none

def decodedEntitiesFrom : Nat → Bytes → Bytes
  | 0, _ => []
  | _ + 1, [] => []
  | fuel + 1, c :: s =>
    if c = ch '&' then
      match decodeOne (c :: s) with
      | some (t, rest) => t ++ decodedEntitiesFrom fuel rest
      | none => c :: decodedEntitiesFrom fuel s
    else c :: decodedEntitiesFrom fuel s

/-- What `append_decoded_entities` appends. -/
def decodedEntities (s : Bytes) : Bytes := decodedEntitiesFrom s.length s

def isBlockTag (name : Bytes) : Bool :=
  ["p", "br", "div", "li", "tr", "td", "th", "h1", "h2", "h3", "h4", "h5", "h6", "ul", "ol",
    "table", "section", "article", "blockquote", "hr", "pre", "title", "dd", "dt"].any
    fun b => iequals name (lit b)

/-- The output of `html_to_text` and whether it ends in white space. -/
structure HtmlOut where
  out : Bytes
  lastSpace : Bool

namespace HtmlOut

def start (out : Bytes) : HtmlOut :=
  { out := out, lastSpace := out.isEmpty || isSpace (out.getLastD 0) }

def push (o : HtmlOut) (t : Bytes) : HtmlOut := { out := o.out ++ t, lastSpace := false }

def pushSpace (o : HtmlOut) : HtmlOut :=
  if o.lastSpace then o else { out := o.out ++ [32], lastSpace := true }

/-- Bytes at the end of `out` that `p` holds of are dropped, down to a length. -/
def popWhile (p : UInt8 → Bool) (startLen : Nat) (out : Bytes) : Bytes :=
  out.take startLen ++ ((out.drop startLen).reverse.dropWhile p).reverse

def pushBlock (startLen : Nat) (sep : UInt8) (o : HtmlOut) : HtmlOut :=
  if sep = 32 then o.pushSpace
  else
    let out := popWhile (· == 32) startLen o.out
    { out := if startLen < out.length ∧ out.getLast? ≠ some sep then out ++ [sep] else out,
      lastSpace := true }

end HtmlOut

/-- The last steps: trailing separators go, and what is over `maxOut`. -/
def htmlFinish (startLen maxOut : Nat) (sep : UInt8) (out : Bytes) : Bytes :=
  let out := HtmlOut.popWhile (fun c => c == 32 || c == sep) startLen out
  if maxOut < out.length - startLen then
    let tail := out.drop startLen
    out.take (startLen + utf8Cut tail maxOut)
  else out

def isNameByte (c : UInt8) : Bool := isAlnum c || c == ch ':' || c == ch '-'

/-- What follows the first `pat` in `s`, nothing when there is none. -/
def after (pat s : Bytes) : Bytes :=
  match find pat s 0 with
  | some e => s.drop (e + pat.length)
  | none => []

/-- The loop over what is left of the HTML. -/
def htmlLoop (sep : UInt8) : Nat → Nat → Nat → Bytes → HtmlOut → HtmlOut
  | 0, _, _, _, o => o
  | _ + 1, _, _, [], o => o
  | fuel + 1, startLen, maxOut, c :: s, o =>
    if maxOut ≤ o.out.length - startLen then o
    else if c = ch '<' then
      if (lit "!--").isPrefixOf s then
        htmlLoop sep fuel startLen maxOut (after (lit "-->") (s.drop 3)) o
      else if (lit "![CDATA[").isPrefixOf s then
        let body := s.drop 8
        let inner := match find (lit "]]>") body 0 with
          | some e => body.take e
          | none => body
        let n := o.out.length
        let room := maxOut - (n - startLen)
        let sub := htmlLoop sep fuel n room inner (.start o.out)
        htmlLoop sep fuel startLen maxOut (after (lit "]]>") body)
          (.start (htmlFinish n room sep sub.out))
      else
        let closing := s.head? = some (ch '/')
        let t := if closing then s.drop 1 else s
        let name := t.takeWhile isNameByte
        if name.isEmpty then htmlLoop sep fuel startLen maxOut s (o.push [c])
        else
          let rest := t.drop name.length
          match find [ch '>'] rest 0 with
          | none => o
          | some gt =>
            if !closing && (iequals name (lit "script") || iequals name (lit "style")) then
              let tag := if iequals name (lit "script") then lit "</script" else lit "</style"
              match ifind (rest.drop gt) tag with
              | none => o
              | some close =>
                htmlLoop sep fuel startLen maxOut (after [ch '>'] ((rest.drop gt).drop close))
                  (o.pushBlock startLen sep)
            else
              htmlLoop sep fuel startLen maxOut (rest.drop (gt + 1))
                (if isBlockTag name then o.pushBlock startLen sep else o)
    else
      match if c = ch '&' then decodeOne (c :: s) else none with
      | some (t, rest) =>
        let o :=
          if t = [0xC2, 0xA0] ∨ t = [0xE2, 0x80, 0x82] ∨ t = [0xE2, 0x80, 0x83] ∨
              t = [0xE2, 0x80, 0x89] then o.pushSpace
          else if t = [0xC2, 0xAD] ∨ t = [0xE2, 0x80, 0x8C] ∨ t = [0xE2, 0x80, 0x8D] then o
          else o.push t
        htmlLoop sep fuel startLen maxOut rest o
      | none =>
        htmlLoop sep fuel startLen maxOut s (if isSpace c then o.pushSpace else o.push [c])

/-- `out` with the text of `html` appended. -/
def htmlToText (html out : Bytes) (maxOut : Nat) (sep : UInt8) : Bytes :=
  htmlFinish out.length maxOut sep
    (htmlLoop sep html.length out.length maxOut html (.start out)).out

end Stok.Text
