import Stok.Core.Word

/-!
# ASCII text

The byte classes, the case tables and the small string functions of `core/ascii.hpp`.
A view into a buffer is the list of its bytes; a callback over the lines or the parts
of a string is the list of what it is called with.
-/

namespace Stok

/-- The bytes of a string literal of the source. -/
def lit (s : String) : Bytes := s.toList.map ch

/-- The bytes of a literal without the decoding of its string. -/
theorem lit_ofList (cs : List Char) : lit (String.ofList cs) = cs.map ch := by
  rw [lit, String.toList_ofList]

def toLower (c : UInt8) : UInt8 := if ch 'A' ≤ c ∧ c ≤ ch 'Z' then c + 32 else c

def toUpper (c : UInt8) : UInt8 := if ch 'a' ≤ c ∧ c ≤ ch 'z' then c - 32 else c

def isDigit (c : UInt8) : Bool := ch '0' ≤ c ∧ c ≤ ch '9'

def isUpper (c : UInt8) : Bool := ch 'A' ≤ c ∧ c ≤ ch 'Z'

def isAlpha (c : UInt8) : Bool := (ch 'a' ≤ c ∧ c ≤ ch 'z') ∨ (ch 'A' ≤ c ∧ c ≤ ch 'Z')

def isAlnum (c : UInt8) : Bool := isAlpha c || isDigit c

/-- Blank, tab, newline, carriage return, form feed, vertical tab. -/
def isSpace (c : UInt8) : Bool := c == 32 || c == 9 || c == 10 || c == 13 || c == 12 || c == 11

def toUpperCopy (s : Bytes) : Bytes := s.map toUpper

def toLowerCopy (s : Bytes) : Bytes := s.map toLower

def trim (s : Bytes) : Bytes := ((s.dropWhile isSpace).reverse.dropWhile isSpace).reverse

theorem trim_head {s : Bytes} {c : UInt8} (h : (trim s).head? = some c) : isSpace c = false := by
  obtain ⟨w, hw⟩ := List.dropWhile_suffix (l := (s.dropWhile isSpace).reverse) isSpace
  have happ : trim s ++ w.reverse = s.dropWhile isSpace := by
    rw [trim, ← List.reverse_append, hw, List.reverse_reverse]
  have hhead : (s.dropWhile isSpace).head? = some c := by
    rw [← happ, List.head?_append, h, Option.some_or]
  have hnot := List.head?_dropWhile_not isSpace s
  rw [hhead] at hnot
  exact Bool.not_eq_true _ |>.mp (by simpa using hnot)

theorem trim_last {s : Bytes} {c : UInt8} (h : (trim s).getLast? = some c) : isSpace c = false := by
  rw [trim, List.getLast?_reverse] at h
  have hnot := List.head?_dropWhile_not isSpace (s.dropWhile isSpace).reverse
  rw [h] at hnot
  exact Bool.not_eq_true _ |>.mp (by simpa using hnot)

theorem dropWhile_eq_self {s : Bytes} (h : ∀ c, s.head? = some c → isSpace c = false) :
    s.dropWhile isSpace = s := by
  cases s with
  | nil => rfl
  | cons c s => rw [List.dropWhile_cons, h c rfl, if_neg Bool.false_ne_true]

theorem trim_eq_self {s : Bytes} (hhead : ∀ c, s.head? = some c → isSpace c = false)
    (hlast : ∀ c, s.getLast? = some c → isSpace c = false) : trim s = s := by
  rw [trim, dropWhile_eq_self hhead, dropWhile_eq_self, List.reverse_reverse]
  intro c hc
  exact hlast c (by rwa [List.head?_reverse] at hc)

theorem trim_trim (s : Bytes) : trim (trim s) = trim s :=
  trim_eq_self (fun _ => trim_head) fun _ => trim_last

/-- White space at the end of a text that does not begin with any. -/
theorem trim_append_space {s w : Bytes} (hhead : ∀ c, s.head? = some c → isSpace c = false)
    (hlast : ∀ c, s.getLast? = some c → isSpace c = false) (hne : s ≠ [])
    (hw : ∀ c ∈ w, isSpace c = true) : trim (s ++ w) = s := by
  have h1 : (s ++ w).dropWhile isSpace = s ++ w := by
    refine dropWhile_eq_self fun c hc => hhead c ?_
    cases s with
    | nil => exact absurd rfl hne
    | cons d s => exact hc
  have h2 : (w.reverse ++ s.reverse).dropWhile isSpace = s.reverse.dropWhile isSpace :=
    List.dropWhile_append_of_pos fun c hc => hw c (List.mem_reverse.mp hc)
  rw [trim, h1, List.reverse_append, h2, dropWhile_eq_self, List.reverse_reverse]
  intro c hc
  exact hlast c (by rwa [List.head?_reverse] at hc)

def iequals (a b : Bytes) : Bool := a.length == b.length && toLowerCopy a == toLowerCopy b

def istartsWith (s p : Bytes) : Bool := s.length ≥ p.length && iequals (s.take p.length) p

/-- `std::string_view::find`: the first place at or after `start` where `pat` occurs. -/
def find (pat s : Bytes) (start : Nat) : Option Nat :=
  (List.range' start (s.length + 1 - start)).find? fun i => pat.isPrefixOf (s.drop i)

theorem find_eq_some {pat s : Bytes} {start e : Nat} :
    find pat s start = some e ↔
      start ≤ e ∧ e ≤ s.length ∧ pat <+: s.drop e ∧ ∀ i, start ≤ i → i < e → ¬ pat <+: s.drop i := by
  rw [find, List.find?_range'_eq_some]
  simp only [List.isPrefixOf_iff_prefix, List.mem_range'_1, Bool.not_eq_true', ← Bool.not_eq_true]
  constructor
  · rintro ⟨hp, ⟨h1, h2⟩, h3⟩
    exact ⟨h1, by omega, hp, h3⟩
  · rintro ⟨h1, h2, hp, h3⟩
    exact ⟨hp, ⟨h1, by omega⟩, h3⟩

theorem find_eq_none {pat s : Bytes} {start : Nat} :
    find pat s start = none ↔ ∀ i, start ≤ i → i ≤ s.length → ¬ pat <+: s.drop i := by
  rw [find, List.find?_range'_eq_none]
  simp only [List.isPrefixOf_iff_prefix, Bool.not_eq_true', ← Bool.not_eq_true]
  constructor
  · intro h i h1 h2
    exact h i h1 (by omega)
  · intro h i h1 h2
    exact h i h1 (by omega)

theorem find_bounds {pat s : Bytes} {start e : Nat} (h : find pat s start = some e) :
    start ≤ e ∧ e + pat.length ≤ s.length := by
  obtain ⟨h1, h2, h3, -⟩ := find_eq_some.mp h
  have := h3.length_le
  rw [List.length_drop] at this
  exact ⟨h1, by omega⟩

/-- An occurrence that lies in `s` is one in a longer string, and conversely. -/
theorem prefix_drop_append {pat s t : Bytes} {i : Nat} (hi : i + pat.length ≤ s.length) :
    pat <+: (s ++ t).drop i ↔ pat <+: s.drop i := by
  rw [List.drop_append_of_le_length (by omega)]
  constructor
  · intro h
    exact List.prefix_of_prefix_length_le h (List.prefix_append _ _) (by rw [List.length_drop]; omega)
  · intro h
    exact h.trans (List.prefix_append _ _)

/-- The first occurrence stays the first as the string grows. -/
theorem find_append {pat s : Bytes} {start e : Nat} (t : Bytes) (h : find pat s start = some e) :
    find pat (s ++ t) start = some e := by
  obtain ⟨h1, h2, h3, h4⟩ := find_eq_some.mp h
  have hb := (find_bounds h).2
  refine find_eq_some.mpr ⟨h1, by rw [List.length_append]; omega, (prefix_drop_append hb).mpr h3, ?_⟩
  intro i hi hlt hp
  exact h4 i hi hlt ((prefix_drop_append (by omega)).mp hp)

/-- A search that failed in `s` need not look again at what lies in `s`. -/
theorem find_append_of_none {pat s : Bytes} {a b : Nat} (t : Bytes) (h : find pat s a = none)
    (hab : a ≤ b) (hb : b + pat.length ≤ s.length + 1) :
    find pat (s ++ t) a = find pat (s ++ t) b := by
  have hmiss : ∀ i, a ≤ i → i < b → ¬ pat <+: (s ++ t).drop i := by
    intro i h1 h2 hp
    exact find_eq_none.mp h i h1 (by omega) ((prefix_drop_append (by omega)).mp hp)
  refine Option.ext fun e => ?_
  rw [find_eq_some, find_eq_some]
  constructor
  · rintro ⟨h1, h2, h3, h4⟩
    have hbe : b ≤ e := Nat.le_of_not_lt fun hlt => hmiss e h1 hlt h3
    exact ⟨hbe, h2, h3, fun i hi => h4 i (hab.trans hi)⟩
  · rintro ⟨h1, h2, h3, h4⟩
    refine ⟨hab.trans h1, h2, h3, fun i hi hlt => ?_⟩
    rcases Nat.lt_or_ge i b with hib | hib
    · exact hmiss i hi hib
    · exact h4 i hib hlt

/-- Case-insensitive find of a lower-case needle. -/
def ifind (hay needle : Bytes) : Option Nat := find needle (toLowerCopy hay) 0

/-- The value of a string of digits. -/
def digitsVal (ds : Bytes) : Nat := ds.foldl (fun v d => v * 10 + (d.toNat - 48)) 0

/-- `std::from_chars` into an integer type with the bounds `lo` and `hi`: the value and
the text after it. A minus sign is read by signed types only. -/
def fromChars (lo hi : Int) (s : Bytes) : Option (Int × Bytes) :=
  let neg := lo < 0 && s.head? == some (ch '-')
  let t := if neg then s.tail else s
  let ds := t.takeWhile isDigit
  let v : Int := if neg then -digitsVal ds else digitsVal ds
  if ds.isEmpty ∨ v < lo ∨ hi < v then none else some (v, t.dropWhile isDigit)

def parseInt (lo hi : Int) (s : Bytes) : Option Int :=
  match fromChars lo hi (trim s) with
  | some (v, []) => some v
  | _ => none

abbrev parseI32 : Bytes → Option Int := parseInt (-2 ^ 31) (2 ^ 31 - 1)

abbrev parseU32 : Bytes → Option Int := parseInt 0 (2 ^ 32 - 1)

abbrev parseI64 : Bytes → Option Int := parseInt (-2 ^ 63) (2 ^ 63 - 1)

abbrev parseU64 : Bytes → Option Int := parseInt 0 (2 ^ 64 - 1)

/-- A line without the carriage return of a `\r\n`. -/
def chopCr (line : Bytes) : Bytes := if line.getLast? = some 13 then line.dropLast else line

/-- The lines of `s` when `cur`, in reverse, has been read of the first. -/
def linesFrom : Bytes → Bytes → List Bytes
  | [], [] => []
  | cur, [] => [chopCr cur.reverse]
  | cur, c :: s => if c = 10 then chopCr cur.reverse :: linesFrom [] s else linesFrom (c :: cur) s

/-- The lines that `for_each_line` visits. -/
def lines (s : Bytes) : List Bytes := linesFrom [] s

theorem linesFrom_line (l s : Bytes) (h : (10 : UInt8) ∉ l) (cur : Bytes) :
    linesFrom cur (l ++ 10 :: s) = chopCr (cur.reverse ++ l) :: linesFrom [] s := by
  induction l generalizing cur with
  | nil => simp [linesFrom]
  | cons c l ih =>
    obtain ⟨hc, hl⟩ := not_or.mp (List.mem_cons.not.mp h)
    rw [List.cons_append, linesFrom, if_neg (Ne.symm hc), ih hl]
    simp

end Stok
