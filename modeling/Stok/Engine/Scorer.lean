import Mathlib.Data.List.DropRight
import Stok.Core.Ascii

/-!
# The phrase scorer

The rules file and the matcher of `engine/scorer.cpp`. `loadRules` reads the rules,
`build` normalises their phrases, puts them into a trie and completes it to an automaton
breadth first; the automaton is kept as one flat table of 16-bit states (`delta`) and one
flat list of rule ids with 32-bit offsets (`outBegin`, `outIds`). `scan` runs it over a
text.
-/

namespace Stok

inductive Catalyst where
  | none | fdaApproval | clinicalData | contract | mnaTarget | mnaAcquirer | earnings
  | uplisting | partnership | product | buyback | cryptoAi | legalWin | offering
  | reverseSplit | distress | other
  deriving DecidableEq, Repr

def kCatNames : List (Catalyst × Bytes) :=
  [(.none, lit "none"), (.fdaApproval, lit "fda"), (.clinicalData, lit "clinical"),
   (.contract, lit "contract"), (.mnaTarget, lit "mna_target"),
   (.mnaAcquirer, lit "mna_acquirer"), (.earnings, lit "earnings"),
   (.uplisting, lit "uplisting"), (.partnership, lit "partnership"),
   (.product, lit "product"), (.buyback, lit "buyback"), (.cryptoAi, lit "crypto_ai"),
   (.legalWin, lit "legal_win"), (.offering, lit "offering"),
   (.reverseSplit, lit "reverse_split"), (.distress, lit "distress"), (.other, lit "other")]

/-- The catalyst of a name, `none` for the source's `Count`. -/
def parseCatalyst (s : Bytes) : Option Catalyst :=
  (kCatNames.find? fun n => iequals s n.2).map (·.1)

namespace Scorer

inductive Kind where
  | cat | spec | hedge | promo | tier1 | nonBinding | dilution | distress | rsplit | spam | neg
  deriving DecidableEq, Repr

structure Rule where
  kindStr : Bytes
  phrase : Bytes
  weight : Int
  kind : Kind
  cat : Catalyst
  deriving DecidableEq, Repr

/-- The kinds other than `cat:<catalyst>`, as the rules file spells them. -/
def kindNames : List (Bytes × Kind) :=
  [(lit "spec", .spec), (lit "hedge", .hedge), (lit "promo", .promo), (lit "tier1", .tier1),
   (lit "nonbinding", .nonBinding), (lit "dilution", .dilution), (lit "distress", .distress),
   (lit "rsplit", .rsplit), (lit "spam", .spam), (lit "neg", .neg)]

/-- The three fields of a rule line, the third up to the end of the line. -/
def fields (line : Bytes) : Option (Bytes × Bytes × Bytes) :=
  match line.span (· != 9) with
  | (_, []) => none
  | (kind, _ :: rest) =>
    match rest.span (· != 9) with
    | (_, []) => none
    | (weight, _ :: phrase) => some (trim kind, trim weight, trim phrase)

def lineError (lineno : Nat) (what : Bytes) : Bytes :=
  lit "rules line " ++ lit (toString lineno) ++ lit ": " ++ what

/-- One line of the rules file: no rule (blank or comment), a rule, or an error. -/
def parseLine (lineno : Nat) (line : Bytes) : Except Bytes (Option Rule) :=
  let line := trim line
  if line.isEmpty ∨ line.head? = some (ch '#') then .ok none
  else
    match fields line with
    | none => .error (lineError lineno (lit "expected kind<TAB>weight<TAB>phrase"))
    | some (kind, weight, phrase) =>
      if phrase.isEmpty then
        .error (lineError lineno (lit "expected kind<TAB>weight<TAB>phrase"))
      else
        let rule (k : Kind) (c : Catalyst) : Rule :=
          { kindStr := kind, phrase := toLowerCopy phrase,
            weight := (parseI32 weight).getD 0, kind := k, cat := c }
        if istartsWith kind (lit "cat:") then
          match parseCatalyst (kind.drop 4) with
          | some c => .ok (some (rule .cat c))
          | none => .error (lineError lineno (lit "unknown catalyst " ++ kind))
        else
          match kindNames.lookup kind with
          | some k => .ok (some (rule k .none))
          | none => .error (lineError lineno (lit "unknown kind " ++ kind))

/-- The rules of the good lines and the error of the first bad one. -/
def parseRules (tsv : Bytes) : List Rule × Option Bytes :=
  (lines tsv).zipIdx.foldl (fun (rules, err) (line, i) =>
    match parseLine (i + 1) line with
    | .ok none => (rules, err)
    | .ok (some r) => (rules ++ [r], err)
    | .error e => (rules, err <|> some e)) ([], none)

/-! ## The automaton -/

/-- Separator, ten digits, twenty-six letters. -/
abbrev kAlpha : Nat := 37

abbrev Letter := Fin kAlpha

instance : NeZero kAlpha := ⟨by decide⟩

def kClass (c : UInt8) : Letter :=
  if isDigit c then Fin.ofNat _ (1 + (c.toNat - 48))
  else if ch 'a' ≤ c ∧ c ≤ ch 'z' then Fin.ofNat _ (11 + (c.toNat - 97))
  else if ch 'A' ≤ c ∧ c ≤ ch 'Z' then Fin.ofNat _ (11 + (c.toNat - 65))
  else 0

/-- A separator at the end of `n`, unless there is one. -/
def pushSep (n : Bytes) : Bytes := if n.getLast? = some 32 then n else n ++ [32]

/-- The normalised phrase: a leading separator, lower-case letters and digits, one
separator for a run of other bytes, a trailing separator unless the phrase ends in `*`. -/
def normalise (phrase : Bytes) : Bytes :=
  let star := phrase.getLast? = some (ch '*')
  let p := if star then phrase.dropLast else phrase
  let n := p.foldl (fun n c => if kClass c ≠ 0 then n ++ [toLower c] else pushSep n) [32]
  if star then n.take 1 ++ (n.drop 1).rdropWhile (· == 32) else pushSep n

/-- The trie: one row of successors a state, `-1` for none, and the rules that end there. -/
structure Trie where
  go : List (Letter → Int)
  own : List (List UInt16)

namespace Trie

def root : Trie := { go := [fun _ => -1], own := [[]] }

def row (T : Trie) (s : Nat) : Letter → Int := T.go.getD s fun _ => -1

/-- The successor of `s`, added when it is missing. -/
def child (T : Trie) (s : Nat) (c : Letter) : Trie × Nat :=
  if T.row s c < 0 then
    ({ go := T.go.set s (Function.update (T.row s) c T.go.length) ++ [fun _ => -1],
       own := T.own ++ [[]] }, T.go.length)
  else (T, (T.row s c).toNat)

def path (T : Trie) (s : Nat) : List Letter → Trie × Nat
  | [] => (T, s)
  | c :: w => (T.child s c).1.path (T.child s c).2 w

def insert (T : Trie) (id : Nat) (w : List Letter) : Trie :=
  let (T, s) := T.path 0 w
  { T with own := T.own.modify s (· ++ [UInt16.ofNat id]) }

def ofWords (ws : List (List Letter)) : Trie :=
  ws.zipIdx.foldl (fun T (w, id) => T.insert id w) root

end Trie

/-- The tables of the breadth-first pass and its queue. -/
structure Bfs where
  fail : List Nat
  delta : List UInt16
  outs : List (List UInt16)
  q : List Nat

namespace Bfs

def failAt (b : Bfs) (s : Nat) : Nat := b.fail.getD s 0

def deltaAt (b : Bfs) (s : Nat) (c : Letter) : UInt16 := b.delta.getD (s * kAlpha + c) 0

def outsAt (b : Bfs) (s : Nat) : List UInt16 := b.outs.getD s []

/-- The transition of `s` on `c`: to the trie's successor, which is queued and fails to
`d`, or else to `d`. -/
def link (T : Trie) (s : Nat) (c : Letter) (d : UInt16) (b : Bfs) : Bfs :=
  let t := T.row s c
  if 0 < t then
    { b with
      fail := b.fail.set t.toNat d.toNat
      delta := b.delta.set (s * kAlpha + c) (UInt16.ofNat t.toNat)
      q := b.q ++ [t.toNat] }
  else { b with delta := b.delta.set (s * kAlpha + c) d }

def start (T : Trie) : Bfs :=
  let n := T.go.length
  let b : Bfs :=
    { fail := List.replicate n 0, delta := List.replicate (n * kAlpha) 0,
      outs := List.replicate n [], q := [] }
  let b := (List.finRange kAlpha).foldl (fun b c => b.link T 0 c 0) b
  { b with outs := b.outs.set 0 (T.own.getD 0 []) }

/-- One turn of the loop, for the state taken from the front of the queue. -/
def visit (T : Trie) (s : Nat) (b : Bfs) : Bfs :=
  let own := T.own.getD s []
  let outs := b.outs.set s own
  let outs := outs.set s (own ++ outs.getD (b.failAt s) [])
  (List.finRange kAlpha).foldl (fun b c => b.link T s c (b.deltaAt (b.failAt s) c))
    { b with outs := outs }

/-- The loop, for at most `fuel` turns. -/
def run (T : Trie) : Nat → Bfs → Bfs
  | 0, b => b
  | fuel + 1, b =>
    match b.q with
    | [] => b
    | s :: q => run T fuel (visit T s { b with q := q })

end Bfs

end Scorer

structure Scorer where
  rules : List Scorer.Rule := []
  norm : List Bytes := []
  delta : List UInt16 := []
  outBegin : List UInt32 := []
  outIds : List UInt16 := []
  nStates : Nat := 0
  deriving DecidableEq, Repr

namespace Scorer

/-- The trie of the normalised phrases. -/
def trie (norm : List Bytes) : Trie := Trie.ofWords (norm.map (·.map kClass))

/-- Every state is queued once, so the loop ends within one turn a state. -/
def automaton (T : Trie) : Bfs := Bfs.run T T.go.length (Bfs.start T)

def build (sc : Scorer) : Scorer :=
  let norm := sc.rules.map fun r => normalise r.phrase
  let T := trie norm
  let b := automaton T
  { sc with
    norm := norm
    delta := b.delta
    outBegin := (List.range (T.go.length + 1)).map fun s =>
      UInt32.ofNat (b.outs.take s).flatten.length
    outIds := b.outs.flatten
    nStates := T.go.length }

/-- The result of loading a rules file and the scorer it leaves. -/
def loadRules (sc : Scorer) (tsv : Bytes) : Except Bytes Unit × Scorer :=
  let (rules, err) := parseRules tsv
  let sc := { sc with rules := rules }
  match err with
  | some e => (.error e, sc)
  | none =>
    if 65535 ≤ rules.length then (.error (lit "too many rules"), sc)
    else
      let sc := sc.build
      if 65535 ≤ sc.nStates then (.error (lit "rule automaton too large"), sc) else (.ok (), sc)

def next (sc : Scorer) (s : UInt16) (c : Letter) : UInt16 :=
  sc.delta.getD (s.toNat * kAlpha + c) 0

/-- The rule ids that `emit` appends in a state. -/
def emit (sc : Scorer) (s : UInt16) : List UInt16 :=
  let k := (sc.outBegin.getD s.toNat 0).toNat
  let e := (sc.outBegin.getD (s.toNat + 1) 0).toNat
  (List.range' k (e - k)).map fun i => sc.outIds.getD i 0

structure Scan where
  s : UInt16
  prevSep : Bool
  hits : List UInt16

def Scan.step (sc : Scorer) (st : Scan) (byte : UInt8) : Scan :=
  let c := kClass byte
  if c = 0 ∧ st.prevSep then st
  else
    let s := sc.next st.s c
    { s := s, prevSep := decide (c = 0), hits := st.hits ++ sc.emit s }

/-- The trailing separator. -/
def Scan.finish (sc : Scorer) (st : Scan) : List UInt16 :=
  if st.prevSep then st.hits else st.hits ++ sc.emit (sc.next st.s 0)

def scan (sc : Scorer) (text : Bytes) (hits : List UInt16) : List UInt16 :=
  if sc.nStates = 0 then hits
  else
    let st : Scan := { s := sc.next 0 0, prevSep := true, hits := hits }
    (text.foldl (Scan.step sc) st).finish sc

end Scorer

end Stok
