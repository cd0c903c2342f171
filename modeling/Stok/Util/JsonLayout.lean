import Mathlib.Data.List.DropRight
import Stok.Core.Decimal
import Stok.Util.Json

/-!
# What the JSON reader accepts

`unescape` undoes `jsonEscaped` and the search for a closing quote stops at the right one.
`Layout d text n` says that `text`, read at nesting depth `d`, is a way to write the node
`n`, with white space anywhere between tokens. `Layout.parseValue` is the completeness of
the parser for these texts.
-/

namespace Stok.Json

open Text

/-! ## Escaped strings -/

/-- Whether the number of backslashes at the end of what was read is even. -/
def EvenTail (cur : Bytes) : Prop := (cur.takeWhile (· == 92)).length % 2 = 0

theorem evenTail_cons {c : UInt8} (h : c ≠ 92) (cur : Bytes) : EvenTail (c :: cur) := by
  simp [EvenTail, h]

theorem evenTail_cons_cons {cur : Bytes} (h : EvenTail cur) : EvenTail (92 :: 92 :: cur) := by
  simpa [EvenTail, Nat.add_assoc] using h

/-- A hexadecimal digit ends no string and escapes nothing. -/
theorem hexDigit_plain {n : Nat} (h : n < 16) :
    hexDigit n ≠ 34 ∧ hexDigit n ≠ 92 ∧ hexVal (hexDigit n) = some n := by
  interval_cases n <;> decide

theorem scanStringEnd_plain {c : UInt8} (hq : c ≠ 34) (cur s : Bytes) :
    scanStringEnd cur (c :: s) = scanStringEnd (c :: cur) s := by
  simp [scanStringEnd, hq]

/-- A quote after one more backslash is passed over. -/
theorem scanStringEnd_escaped {cur : Bytes} (h : EvenTail cur) (s : Bytes) :
    scanStringEnd cur (92 :: 34 :: s) =
      (scanStringEnd [] s).map fun (raw, rest) => (cur.reverse ++ 92 :: 34 :: raw, rest) := by
  have hodd : ¬ ((92 :: cur).takeWhile (· == (92 : UInt8))).length % 2 = 0 := by
    have : (cur.takeWhile (· == (92 : UInt8))).length % 2 = 0 := h
    simp only [List.takeWhile_cons, beq_self_eq_true, if_true, List.length_cons]
    omega
  have hquote : scanStringEnd (92 :: cur) (34 :: s) =
      if ((92 :: cur).takeWhile (· == (92 : UInt8))).length % 2 = 0 then
        some ((92 :: cur).reverse, s)
      else (scanStringEnd [] s).map fun (raw, rest) => ((92 :: cur).reverse ++ 34 :: raw, rest) :=
    rfl
  rw [scanStringEnd_plain (by decide), hquote, if_neg hodd]
  simp

/-- The three shapes of an escaped byte: a quote, a backslash, and a text that ends in a byte
that is neither. -/
theorem escapeByte_cases (c : UInt8) :
    (c = 34 ∧ escapeByte c = [92, 34]) ∨ (c = 92 ∧ escapeByte c = [92, 92]) ∨
      ∃ e d, escapeByte c = e ++ [d] ∧ d ≠ 92 ∧ ∀ x ∈ e ++ [d], x ≠ 34 := by
  refine byte_forall (p := fun c => (c = 34 ∧ escapeByte c = [92, 34]) ∨
    (c = 92 ∧ escapeByte c = [92, 92]) ∨
      ∃ e d, escapeByte c = e ++ [d] ∧ d ≠ 92 ∧ ∀ x ∈ e ++ [d], x ≠ 34) ?_ c
  intro n hn
  have key : ∀ n < 256, escapeByte (UInt8.ofNat n) = [92, 34] ∧ UInt8.ofNat n = 34 ∨
      escapeByte (UInt8.ofNat n) = [92, 92] ∧ UInt8.ofNat n = 92 ∨
      ((escapeByte (UInt8.ofNat n)).getLast? ≠ some 92 ∧ escapeByte (UInt8.ofNat n) ≠ [] ∧
        (escapeByte (UInt8.ofNat n)).all (· != 34) = true) := by decide +kernel
  rcases key n hn with h | h | ⟨hlast, hne, hq⟩
  · exact .inl h.symm
  · exact .inr (.inl h.symm)
  · refine .inr (.inr ⟨_, _, (List.dropLast_append_getLast hne).symm, ?_, ?_⟩)
    · intro e
      exact hlast (by rw [List.getLast?_eq_some_getLast hne, e])
    · rw [List.dropLast_append_getLast hne]
      exact fun x hx => bne_iff_ne.mp (List.all_eq_true.mp hq x hx)

theorem scanStringEnd_notQuote (e : Bytes) (he : ∀ c ∈ e, c ≠ 34) (cur s : Bytes) :
    scanStringEnd cur (e ++ s) = scanStringEnd (e.reverse ++ cur) s := by
  induction e generalizing cur with
  | nil => rfl
  | cons c e ih =>
    rw [List.cons_append, scanStringEnd_plain (he c (List.mem_cons_self ..)),
      ih fun d hd => he d (List.mem_cons_of_mem _ hd)]
    simp

/-- The search for the closing quote finds the end of an escaped string. -/
theorem scanStringEnd_jsonEscaped (v : Bytes) {cur : Bytes} (h : EvenTail cur) (rest : Bytes) :
    scanStringEnd cur (jsonEscaped v ++ 34 :: rest) =
      some (cur.reverse ++ jsonEscaped v, rest) := by
  induction v generalizing cur with
  | nil =>
    have h' : (cur.takeWhile (· == (92 : UInt8))).length % 2 = 0 := h
    simp [jsonEscaped, scanStringEnd, h']
  | cons c v ih =>
    have e : jsonEscaped (c :: v) = escapeByte c ++ jsonEscaped v := by simp [jsonEscaped]
    rw [e, List.append_assoc]
    obtain ⟨-, hc⟩ | ⟨-, hc⟩ | ⟨e', d, hc, hd, hq⟩ := escapeByte_cases c
    · rw [hc, show ([92, 34] : Bytes) ++ (jsonEscaped v ++ 34 :: rest) =
        92 :: 34 :: (jsonEscaped v ++ 34 :: rest) from rfl, scanStringEnd_escaped h,
        ih (show EvenTail [] from rfl)]
      simp
    · rw [hc, show ([92, 92] : Bytes) ++ (jsonEscaped v ++ 34 :: rest) =
        92 :: 92 :: (jsonEscaped v ++ 34 :: rest) from rfl, scanStringEnd_plain (by decide),
        scanStringEnd_plain (by decide), ih (evenTail_cons_cons h)]
      simp
    · rw [hc, scanStringEnd_notQuote _ hq, ih]
      · simp
      · rw [List.reverse_append, List.reverse_singleton, List.append_assoc]
        exact evenTail_cons hd _

theorem utf8_ascii {n : Nat} (h : n < 128) : utf8 n = [UInt8.ofNat n] := if_pos h

/-- A byte stands for itself, or for a short escape, or for its code point. -/
theorem escapeByte_forms (c : UInt8) :
    (escapeByte c = [c] ∧ c ≠ 92) ∨ (∃ e, escapeByte c = [92, e] ∧ e ≠ 117 ∧ escaped e = c) ∨
      (escapeByte c = [92, 117, 48, 48, hexDigit (c.toNat / 16), hexDigit (c.toNat % 16)] ∧
        c.toNat < 32) := by
  refine byte_forall (p := fun c => (escapeByte c = [c] ∧ c ≠ 92) ∨
    (∃ e, escapeByte c = [92, e] ∧ e ≠ 117 ∧ escaped e = c) ∨
      (escapeByte c = [92, 117, 48, 48, hexDigit (c.toNat / 16), hexDigit (c.toNat % 16)] ∧
        c.toNat < 32)) ?_ c
  intro n hn
  have key : ∀ n < 256,
      (escapeByte (UInt8.ofNat n) = [UInt8.ofNat n] ∧ UInt8.ofNat n ≠ 92) ∨
      (escapeByte (UInt8.ofNat n) = [92, (escapeByte (UInt8.ofNat n)).getD 1 0] ∧
        (escapeByte (UInt8.ofNat n)).getD 1 0 ≠ 117 ∧
        escaped ((escapeByte (UInt8.ofNat n)).getD 1 0) = UInt8.ofNat n) ∨
      (escapeByte (UInt8.ofNat n) = [92, 117, 48, 48, hexDigit ((UInt8.ofNat n).toNat / 16),
        hexDigit ((UInt8.ofNat n).toNat % 16)] ∧ (UInt8.ofNat n).toNat < 32) := by
    decide +kernel
  exact (key n hn).imp_right (Or.imp_left fun h => ⟨_, h⟩)

/-- One escaped byte is read back. -/
theorem unescapeFrom_escapeByte (c : UInt8) (s : Bytes) :
    unescapeFrom 0 (escapeByte c ++ s) = c :: unescapeFrom 0 s := by
  obtain ⟨hc, hne⟩ | ⟨e, hc, hne, he⟩ | ⟨hc, hlt⟩ := escapeByte_forms c
  · rw [hc]
    simp [unescapeFrom, hne]
  · rw [hc]
    simp [unescapeFrom, hne, he]
  · have h1 := (hexDigit_plain (show c.toNat / 16 < 16 by omega)).2.2
    have h2 := (hexDigit_plain (show c.toNat % 16 < 16 by omega)).2.2
    have hhex : hex4 48 48 (hexDigit (c.toNat / 16)) (hexDigit (c.toNat % 16)) =
        some c.toNat := by
      have h0 : hexVal 48 = some 0 := by decide
      simp only [hex4, h0, h1, h2, Option.bind_eq_bind, Option.bind_some]
      congr 1
      omega
    rw [hc]
    simp only [List.cons_append, List.nil_append, unescapeFrom, hhex]
    rw [if_neg (by omega), utf8_ascii (by omega), UInt8.ofNat_toNat]
    rfl

theorem unescape_jsonEscaped (v : Bytes) : unescape (jsonEscaped v) = v := by
  induction v with
  | nil => rfl
  | cons c v ih =>
    have e : jsonEscaped (c :: v) = escapeByte c ++ jsonEscaped v := by simp [jsonEscaped]
    rw [unescape, e, unescapeFrom_escapeByte]
    exact congrArg _ ih

/-! ## Layouts -/

def Ws (w : Bytes) : Prop := ∀ c ∈ w, isWs c = true

theorem skipWs_append {w : Bytes} (h : Ws w) (s : Bytes) : skipWs (w ++ s) = skipWs s :=
  List.dropWhile_append_of_pos h

theorem skipWs_cons {c : UInt8} (h : isWs c = false) (s : Bytes) : skipWs (c :: s) = c :: s :=
  List.dropWhile_cons_of_neg (by simp [h])

theorem skipWs_skipWs (s : Bytes) : skipWs (skipWs s) = skipWs s := List.dropWhile_idempotent ..

/-- The raw text of a string: the quote after it ends it. -/
def RawStr (raw : Bytes) : Prop :=
  ∀ rest, scanStringEnd [] (raw ++ 34 :: rest) = some (raw, rest)

theorem rawStr_jsonEscaped (v : Bytes) : RawStr (jsonEscaped v) :=
  fun rest => scanStringEnd_jsonEscaped v (show EvenTail [] from rfl) rest

/-- Text after which a number has ended. -/
def NumEnd (rest : Bytes) : Prop := ∀ c, rest.head? = some c → isNumByte c = false

variable {F : Type} [Dbl F]

/-- The text of a node that is no container. -/
inductive Scalar : Bytes → Node F → Prop
  | null : Scalar (lit "null") .null
  | bool (b : Bool) : Scalar (if b then lit "true" else lit "false") (.bool b)
  | string {raw : Bytes} (h : RawStr raw) : Scalar (34 :: (raw ++ [34])) (.string raw)
  | number {c : UInt8} {t : Bytes} {v : F} (hc : c = 45 ∨ isDigit c = true)
      (ht : ∀ d ∈ t, isNumByte d = true) (hv : Dbl.fromCharsDbl (c :: t) = some v) :
      Scalar (c :: t) (.number (c :: t) v)

/-- What stands before the value of a child: in an object the key and a colon. -/
inductive KeyText : Bool → Bytes → Bytes → Prop
  | array : KeyText false [] []
  | object {w key w' : Bytes} (hw : Ws w) (hk : RawStr key) (hw' : Ws w') :
      KeyText true (w ++ 34 :: (key ++ 34 :: (w' ++ [58]))) key

def opening (isObj : Bool) : UInt8 := if isObj then 123 else 91

def container (isObj : Bool) (cs : List (Bytes × Node F)) : Node F :=
  if isObj then .object cs else .array cs

mutual

/-- A text of the node, read at nesting depth `d`. -/
inductive Layout : Nat → Bytes → Node F → Prop
  | scalar {d : Nat} {w t : Bytes} {n : Node F} (hd : d ≤ 256) (hw : Ws w) (h : Scalar t n) :
      Layout d (w ++ t) n
  | empty {d : Nat} {w w' : Bytes} (isObj : Bool) (hd : d ≤ 256) (hw : Ws w) (hw' : Ws w') :
      Layout d (w ++ opening isObj :: (w' ++ [closing isObj])) (container isObj [])
  | items {d : Nat} {w t : Bytes} {isObj : Bool} {cs : List (Bytes × Node F)} (hd : d ≤ 256)
      (hw : Ws w) (h : Items isObj d t cs) :
      Layout d (w ++ opening isObj :: t) (container isObj cs)

/-- A text of the children of a container at depth `d`, with the closing bracket. -/
inductive Items : Bool → Nat → Bytes → List (Bytes × Node F) → Prop
  | last {isObj : Bool} {d : Nat} {k key t w : Bytes} {n : Node F} (hk : KeyText isObj k key)
      (h : Layout (d + 1) t n) (hw : Ws w) :
      Items isObj d (k ++ (t ++ (w ++ [closing isObj]))) [(key, n)]
  | more {isObj : Bool} {d : Nat} {k key t w r : Bytes} {n : Node F}
      {cs : List (Bytes × Node F)} (hk : KeyText isObj k key) (h : Layout (d + 1) t n)
      (hw : Ws w) (hr : Items isObj d r cs) :
      Items isObj d (k ++ (t ++ (w ++ 44 :: r))) ((key, n) :: cs)

end

theorem Layout.depth_le {d : Nat} {t : Bytes} {n : Node F} (h : Layout d t n) : d ≤ 256 := by
  cases h <;> assumption

/-- A byte that begins a value: no white space, no closing bracket, no byte-order mark. -/
def Begins (c : UInt8) : Prop := isWs c = false ∧ c ≠ 93 ∧ c ≠ 125 ∧ c ≠ 0xEF

theorem begins_opening (isObj : Bool) : Begins (opening isObj) := by
  cases isObj <;> exact ⟨by decide, by decide, by decide, by decide⟩

theorem begins_number {c : UInt8} (h : c = 45 ∨ isDigit c = true) :
    Begins c ∧ c ≠ 34 ∧ c ≠ 123 ∧ c ≠ 91 ∧ c ≠ 116 ∧ c ≠ 102 ∧ c ≠ 110 := by
  refine byte_forall (p := fun c => (c = 45 ∨ isDigit c = true) →
    Begins c ∧ c ≠ 34 ∧ c ≠ 123 ∧ c ≠ 91 ∧ c ≠ 116 ∧ c ≠ 102 ∧ c ≠ 110) ?_ c h
  unfold Begins
  decide +kernel

theorem Scalar.begins {t : Bytes} {n : Node F} (h : Scalar t n) :
    ∃ c s, t = c :: s ∧ Begins c ∧ c ≠ 123 ∧ c ≠ 91 := by
  cases h with
  | null => exact ⟨110, lit "ull", by decide, by unfold Begins; decide, by decide, by decide⟩
  | bool b =>
    cases b with
    | true => exact ⟨116, lit "rue", by decide, by unfold Begins; decide, by decide, by decide⟩
    | false => exact ⟨102, lit "alse", by decide, by unfold Begins; decide, by decide, by decide⟩
  | string h => exact ⟨34, _, rfl, by unfold Begins; decide, by decide, by decide⟩
  | number hc ht hv =>
    obtain ⟨hb, -, h1, h2, -⟩ := begins_number hc
    exact ⟨_, _, rfl, hb, h1, h2⟩

/-- After white space a layout begins with a byte that begins a value. -/
theorem Layout.begins {d : Nat} {t : Bytes} {n : Node F} (h : Layout d t n) :
    ∃ w c s, Ws w ∧ t = w ++ c :: s ∧ Begins c := by
  cases h with
  | scalar hd hw h =>
    obtain ⟨c, s, rfl, hb, -⟩ := h.begins
    exact ⟨_, c, s, hw, rfl, hb⟩
  | empty isObj hd hw hw' => exact ⟨_, _, _, hw, rfl, begins_opening isObj⟩
  | items hd hw h => exact ⟨_, _, _, hw, rfl, begins_opening _⟩

theorem Items.begins {isObj : Bool} {d : Nat} {t : Bytes} {cs : List (Bytes × Node F)}
    (h : Items isObj d t cs) : d + 1 ≤ 256 ∧ ∃ w c s, Ws w ∧ t = w ++ c :: s ∧ Begins c := by
  have key : ∀ {k key u : Bytes} {n : Node F} (r : Bytes), KeyText isObj k key →
      Layout (d + 1) u n → ∃ w c s, Ws w ∧ k ++ (u ++ r) = w ++ c :: s ∧ Begins c := by
    intro k key u n r hk hl
    cases hk with
    | array =>
      obtain ⟨w, c, s, hw, rfl, hb⟩ := hl.begins
      exact ⟨w, c, s ++ r, hw, by simp, hb⟩
    | object hw hk hw' =>
      exact ⟨_, 34, _, hw, by simp only [List.append_assoc, List.cons_append]; rfl,
        by unfold Begins; decide⟩
  cases h with
  | last hk hl hw => exact ⟨hl.depth_le, key _ hk hl⟩
  | more hk hl hw hr => exact ⟨hl.depth_le, key _ hk hl⟩

/-! ## Completeness of the parser -/

theorem Scalar.parseScalar {t : Bytes} {n : Node F} (h : Scalar t n) {rest : Bytes}
    (hr : NumEnd rest) : Json.parseScalar (t ++ rest) = .ok (n, rest) := by
  cases h with
  | null => rfl
  | bool b => cases b <;> rfl
  | @string raw h =>
    have hs : scanStringEnd [] (raw ++ [34] ++ rest) = some (raw, rest) := by simpa using h rest
    simp only [List.cons_append, Json.parseScalar]
    rw [if_pos (by decide), hs]
  | @number c t v hc ht hv =>
    obtain ⟨-, h34, -, -, ht', hf', hn'⟩ := begins_number hc
    have htake : (t ++ rest).takeWhile isNumByte = t := by
      rw [List.takeWhile_append_of_pos ht]
      cases rest with
      | nil => simp
      | cons d r => simp [hr d rfl]
    have hdrop : (t ++ rest).dropWhile isNumByte = rest := by
      rw [List.dropWhile_append_of_pos ht]
      cases rest with
      | nil => simp
      | cons d r => simp [hr d rfl]
    have hno : ∀ (k : Nat) (u : Bytes), u.head? ≠ some c → (c :: (t ++ rest)).take (k + 1) ≠ u := by
      rintro k u hu rfl
      exact hu rfl
    simp only [List.cons_append, Json.parseScalar]
    rw [if_neg (show c ≠ ch '"' from h34), if_neg (hno 3 _ (by simpa [lit] using ht'.symm)),
      if_neg (hno 4 _ (by simpa [lit] using hf'.symm)),
      if_neg (hno 3 _ (by simpa [lit] using hn'.symm)), if_pos (show c = ch '-' ∨ isDigit c = true from hc), htake, hdrop]
    simp [hv]

theorem parseValue_skipWs (fuel : Nat) {d : Nat} (hd : d ≤ 256) (s : Bytes) :
    parseValue (F := F) fuel d (skipWs s) = parseValue fuel d s ∨ fuel = 0 := by
  cases fuel with
  | zero => exact .inr rfl
  | succ fuel => exact .inl (by simp only [parseValue, skipWs_skipWs, not_lt.2 hd, if_false])

theorem KeyText.parseKey {k key : Bytes} (h : KeyText true k key) (s : Bytes) :
    Json.parseKey (k ++ s) = .ok (key, s) ∧ Json.parseKey (skipWs (k ++ s)) = .ok (key, s) := by
  cases h with
  | @object w _ w' hw hk hw' =>
    have e : skipWs (w ++ 34 :: (key ++ 34 :: (w' ++ [58])) ++ s) =
        34 :: (key ++ 34 :: (w' ++ 58 :: s)) := by
      rw [List.append_assoc, skipWs_append hw, List.cons_append, skipWs_cons (by decide)]
      simp
    have hcolon : skipWs (w' ++ 58 :: s) = 58 :: s := by
      rw [skipWs_append hw', skipWs_cons (by decide)]
    have hkey : Json.parseKey (34 :: (key ++ 34 :: (w' ++ 58 :: s))) = .ok (key, s) := by
      simp only [Json.parseKey, skipWs_cons (show isWs 34 = false by decide)]
      rw [hk (w' ++ 58 :: s)]
      simp only [hcolon]
    refine ⟨?_, by rw [e]; exact hkey⟩
    have : Json.parseKey (w ++ 34 :: (key ++ 34 :: (w' ++ [58])) ++ s) =
        Json.parseKey (skipWs (w ++ 34 :: (key ++ 34 :: (w' ++ [58])) ++ s)) := by
      simp only [Json.parseKey, skipWs_skipWs]
    rw [this, e]
    exact hkey

theorem numEnd_cons {c : UInt8} (h : isNumByte c = false) (s : Bytes) : NumEnd (c :: s) := by
  intro d hd
  cases hd
  exact h

theorem isNumByte_ws {d : UInt8} (h : isWs d = true) : isNumByte d = false :=
  byte_forall (p := fun d => isWs d = true → isNumByte d = false) (by decide +kernel) d h

theorem numEnd_ws {w : Bytes} (hw : Ws w) {c : UInt8} (h : isNumByte c = false) (s : Bytes) :
    NumEnd (w ++ c :: s) := by
  cases w with
  | nil => exact numEnd_cons h s
  | cons d w => exact numEnd_cons (isNumByte_ws (hw d (List.mem_cons_self ..))) _

theorem isNumByte_closing (isObj : Bool) :
    isNumByte (closing isObj) = false ∧ isWs (closing isObj) = false ∧ closing isObj ≠ 44 := by
  cases isObj <;> decide

theorem parseValue_container {fuel d : Nat} (hd : d ≤ 256) (isObj : Bool) {w : Bytes} (hw : Ws w)
    (t : Bytes) :
    parseValue (F := F) (fuel + 1) d (w ++ opening isObj :: t) =
      if (skipWs t).head? = some (closing isObj) then .ok (container isObj [], (skipWs t).tail)
      else (parseItems isObj fuel d (skipWs t)).map fun (cs, rest) => (container isObj cs, rest) := by
  rw [parseValue, if_neg (not_lt.2 hd), skipWs_append hw, skipWs_cons (begins_opening isObj).1]
  cases isObj <;> rfl

/-- The key of a child, none in an array. -/
def childKey (isObj : Bool) (s : Bytes) : Except Error (Bytes × Bytes) :=
  if isObj then Json.parseKey s else .ok ([], s)

/-- After the value of a child: the next child, or the end of the container. -/
theorem parseItems_child {isObj : Bool} {fuel d : Nat} {s key s' s'' : Bytes} {t : Node F}
    (hk : childKey isObj s = .ok (key, s')) (hv : parseValue fuel (d + 1) s' = .ok (t, s'')) :
    parseItems isObj (fuel + 1) d s =
      match skipWs s'' with
      | [] => fail "unexpected end in container" []
      | c :: rest =>
        if c = ch ',' then
          (parseItems isObj fuel d rest).bind fun (cs, rest) => .ok ((key, t) :: cs, rest)
        else if c = closing isObj then .ok ([(key, t)], rest)
        else fail "expected ',' or close" (c :: rest) := by
  cases isObj with
  | false =>
    cases hk
    simp only [parseItems, Bool.false_eq_true, if_false]
    show (parseValue fuel (d + 1) s).bind _ = _
    rw [hv]
    rfl
  | true =>
    have hk' : Json.parseKey s = .ok (key, s') := hk
    simp only [parseItems, if_true]
    show (Json.parseKey s).bind _ = _
    rw [hk']
    show (parseValue fuel (d + 1) s').bind _ = _
    rw [hv]
    rfl

/-- The text of a key, with white space before it or not, leads to the value. -/
theorem KeyText.childKey {isObj : Bool} {fuel d : Nat} {k key s s' u : Bytes} {n : Node F}
    (hk : KeyText isObj k key) (hd : d + 1 ≤ 256) (hu : u = k ++ s ∨ u = skipWs (k ++ s))
    (hv : parseValue fuel (d + 1) s = .ok (n, s')) :
    ∃ r, Json.childKey isObj u = .ok (key, r) ∧ parseValue fuel (d + 1) r = .ok (n, s') := by
  cases hk with
  | array =>
    refine ⟨u, rfl, ?_⟩
    rcases hu with rfl | rfl
    · exact hv
    · rcases parseValue_skipWs (F := F) fuel hd s with h | rfl
      · exact h.trans hv
      · cases hv
  | object hw hk hw' =>
    have hkey := (KeyText.object hw hk hw').parseKey s
    refine ⟨s, ?_, hv⟩
    rcases hu with rfl | rfl
    · exact hkey.1
    · exact hkey.2

mutual

/-- The parser reads every layout. -/
theorem Layout.parseValue {d : Nat} {t : Bytes} {n : Node F} (h : Layout d t n) (fuel : Nat)
    (rest : Bytes) (hf : 2 * t.length ≤ fuel) (hr : NumEnd rest) :
    Json.parseValue fuel d (t ++ rest) = .ok (n, rest) := by
  match h with
  | .scalar (w := w) hd hw hs =>
    obtain ⟨c, s, rfl, hb, h1, h2⟩ := hs.begins
    obtain ⟨fuel, rfl⟩ : ∃ f, fuel = f + 1 := ⟨fuel - 1, by simp at hf; omega⟩
    have hp := hs.parseScalar hr
    rw [List.append_assoc]
    simp only [Json.parseValue, not_lt.2 hd, if_false, skipWs_append hw, List.cons_append,
      skipWs_cons hb.1] at hp ⊢
    rw [if_neg (by rintro (h | h); exacts [h1 h, h2 h]), hp]
  | .empty isObj hd hw hw' =>
    rename_i w w'
    obtain ⟨fuel, rfl⟩ : ∃ f, fuel = f + 1 := ⟨fuel - 1, by simp at hf; omega⟩
    have hskip : skipWs ((w' ++ [closing isObj]) ++ rest) = closing isObj :: rest := by
      rw [List.append_assoc, skipWs_append hw', List.singleton_append,
        skipWs_cons (isNumByte_closing isObj).2.1]
    rw [List.append_assoc, List.cons_append, parseValue_container hd isObj hw, hskip]
    simp
  | .items hd hw hi =>
    rename_i w t isObj cs
    obtain ⟨fuel, rfl⟩ : ∃ f, fuel = f + 1 := ⟨fuel - 1, by simp at hf; omega⟩
    obtain ⟨-, w₁, c, s, hw₁, ht, hb⟩ := hi.begins
    have hhead : (skipWs (t ++ rest)).head? ≠ some (closing isObj) := by
      rw [ht, List.append_assoc, skipWs_append hw₁, List.cons_append, skipWs_cons hb.1]
      cases isObj
      · simpa [closing] using hb.2.1
      · simpa [closing] using hb.2.2.1
    have hitems := hi.parseItems fuel rest (skipWs (t ++ rest)) (.inr rfl) (by
      simp only [List.length_append, List.length_cons] at hf
      omega)
    rw [List.append_assoc, List.cons_append, parseValue_container hd isObj hw, if_neg hhead, hitems]
    rfl

theorem Items.parseItems {isObj : Bool} {d : Nat} {t : Bytes} {cs : List (Bytes × Node F)}
    (h : Items isObj d t cs) (fuel : Nat) (rest u : Bytes)
    (hu : u = t ++ rest ∨ u = skipWs (t ++ rest)) (hf : 2 * t.length ≤ fuel) :
    Json.parseItems isObj fuel d u = .ok (cs, rest) := by
  obtain ⟨hclose, hws, hcomma⟩ := isNumByte_closing isObj
  match h with
  | .last (k := k) (t := t) (w := w) hk hl hw =>
    simp only [List.length_append, List.length_cons, List.length_nil] at hf
    obtain ⟨fuel, rfl⟩ : ∃ f, fuel = f + 1 := ⟨fuel - 1, by omega⟩
    have hv := hl.parseValue fuel (w ++ closing isObj :: rest) (by omega) (numEnd_ws hw hclose _)
    obtain ⟨r, hkey, hval⟩ := hk.childKey hl.depth_le (by simpa using hu) hv
    rw [parseItems_child hkey hval, skipWs_append hw, skipWs_cons hws]
    simp [hcomma]
  | .more (k := k) (t := t) (w := w) (r := r) hk hl hw hi =>
    simp only [List.length_append, List.length_cons] at hf
    obtain ⟨fuel, rfl⟩ : ∃ f, fuel = f + 1 := ⟨fuel - 1, by omega⟩
    have hv := hl.parseValue fuel (w ++ 44 :: (r ++ rest)) (by omega)
      (numEnd_ws hw (by decide) _)
    have hitems := hi.parseItems fuel rest (r ++ rest) (.inl rfl) (by omega)
    obtain ⟨s, hkey, hval⟩ := hk.childKey hl.depth_le (by simpa using hu) hv
    rw [parseItems_child hkey hval, skipWs_append hw, skipWs_cons (by decide)]
    show (Json.parseItems isObj fuel d (r ++ rest)).bind _ = _
    rw [hitems]
    rfl

end

/-- A document may begin and end with white space; a byte-order mark is no part of it. -/
theorem Layout.parse {t w : Bytes} {n : Node F} (h : Layout 0 t n) (hw : Ws w) :
    Json.parse (t ++ w) = .ok n := by
  obtain ⟨w₀, c, s, hw₀, ht, hb⟩ := h.begins
  have hbom : (t ++ w).head? ≠ some 0xEF := by
    rw [ht]
    cases w₀ with
    | nil => simpa using hb.2.2.2
    | cons d w₀ =>
      intro e
      have hd : isWs d = true := hw₀ d (List.mem_cons_self ..)
      obtain rfl : d = 0xEF := by simpa using e
      exact absurd hd (by decide)
  have hskip : NumEnd w := by
    cases w with
    | nil => intro c hc; cases hc
    | cons d w => exact numEnd_cons (isNumByte_ws (hw d (List.mem_cons_self ..))) _
  have hv := h.parseValue (2 * (t ++ w).length + 2) w (by simp only [List.length_append]; omega) hskip
  have hv' : Json.parseValue (2 * (t ++ w).length + 2) 0 (skipWs (t ++ w)) = .ok (n, w) :=
    ((parseValue_skipWs (F := F) _ (Nat.zero_le _) (t ++ w)).resolve_right (by omega)).trans hv
  have hend : skipWs w = [] := by
    have := skipWs_append hw []
    rwa [List.append_nil] at this
  rw [Json.parse, if_neg (fun h => hbom h.2), hv']
  simp [hend]

/-! ## Strings and numbers -/

def strNode (v : Bytes) : Node F := .string (jsonEscaped v)

def numNode (t : Bytes) : Node F := .number t ((Dbl.fromCharsDbl t).getD (Dbl.ofRat 0))

def intNode (v : Int) : Node F := numNode (Dbl.intText v)

theorem jsonEscaped_plain {v : Bytes} (h : (92 : UInt8) ∉ jsonEscaped v) :
    jsonEscaped v = v := by
  induction v with
  | nil => rfl
  | cons c v ih =>
    have e : jsonEscaped (c :: v) = escapeByte c ++ jsonEscaped v := by
      simp [jsonEscaped]
    rw [e, List.mem_append, not_or] at h
    rw [e, ih h.2]
    rcases escapeByte_forms c with ⟨hc, -⟩ | ⟨d, hc, -⟩ | ⟨hc, -⟩
    · rw [hc]
      rfl
    · rw [hc] at h
      simp at h
    · rw [hc] at h
      simp at h

omit [Dbl F] in
/-- A string is read back byte for byte. -/
theorem str_strNode (v : Bytes) : str (some (strNode v : Node F)) = v := by
  show (if ch '\\' ∈ jsonEscaped v then unescape (jsonEscaped v)
    else jsonEscaped v) = v
  split
  · exact unescape_jsonEscaped v
  · rename_i h
    exact jsonEscaped_plain h

theorem integer_intNode {v lo hi : Int} (h1 : lo ≤ v) (h2 : v ≤ hi) : integer lo hi (some (intNode v : Node F)) = v := by
  have hraw : rawText (some (intNode v : Node F)) = some (Dbl.intText v) := rfl
  rw [integer, hraw]
  dsimp only
  rw [Dbl.fromChars_intText h1 h2]

theorem i64_int {v : Int} (h1 : -2 ^ 63 ≤ v) (h2 : v < 2 ^ 63) :
    i64 (some (intNode v : Node F)) = v := integer_intNode h1 (by omega)

theorem u64_intNode {n : Nat} (h : n < 2 ^ 64) : u64 (some (intNode n : Node F)) = n := by
  rw [u64, integer_intNode (by omega) (by omega)]
  rfl

theorem scalar_numNode {t : Bytes} (h : Dbl.DecText t) : Scalar t (numNode t : Node F) := by
  obtain ⟨v, hv⟩ := Dbl.fromCharsDbl_isSome (F := F) h
  obtain ⟨⟨sign, whole, frac, rfl, hsign, hne, hwhole, hfrac⟩, -⟩ := h
  have hnum : ∀ c, isDigit c = true → isNumByte c = true := fun c h => by simp [isNumByte, h]
  have hall : ∀ c ∈ whole ++ (if frac = [] then [] else ch '.' :: frac), isNumByte c = true := by
    intro c hc
    rcases List.mem_append.1 hc with hc | hc
    · exact hnum c (hwhole c hc)
    · split at hc
      · simp at hc
      · rcases List.mem_cons.1 hc with rfl | hc
        · decide
        · exact hnum c (hfrac c hc)
  rw [numNode, hv]
  rcases hsign with rfl | rfl
  · cases whole with
    | nil => exact absurd rfl hne
    | cons c whole =>
      exact .number (.inr (hwhole c (List.mem_cons_self ..)))
        (fun d hd => hall d (List.mem_cons_of_mem _ hd)) hv
  · exact .number (.inl rfl) hall hv

theorem decText_intText {v : Int} (h : v.natAbs < 10 ^ 20) : Dbl.DecText (Dbl.intText v) := by
  have hlen := Dbl.length_digits_le (k := 20) (by decide) h
  unfold Dbl.intText
  split
  · exact ⟨⟨[ch '-'], Dbl.digits v.natAbs, [], by simp, .inr rfl, Dbl.digits_ne_nil _,
      Dbl.isDigit_digits _, by simp⟩, by rw [List.length_cons]; omega⟩
  · exact ⟨⟨[], Dbl.digits v.natAbs, [], by simp, .inl rfl, Dbl.digits_ne_nil _,
      Dbl.isDigit_digits _, by simp⟩, by omega⟩

end Stok.Json
