import Stok.Util.JsonNodes

/-!
# Values through a document

A `Value` is what a document says: its strings are the bytes before they are escaped and its
integers those that one of the two 64-bit types has. `Prints t v` says that `t` is a text of `v`, with
white space anywhere between tokens, and `Shows nodes v n` that whoever walks the vector from
the node `n` finds `v`. `shows_printed` takes the one to the other.
-/

namespace Stok.Json

open Text

/-! ## Values and their texts -/

/-- An integer that `int64_t` or `uint64_t` has. -/
structure JsonInt where
  val : Int
  low : -2 ^ 63 ≤ val
  high : val < 2 ^ 64

inductive Value where
  | null
  | bool (b : Bool)
  | int (i : JsonInt)
  | str (s : Bytes)
  | arr (vs : List Value)
  | obj (ms : List (Bytes × Value))

mutual

/-- How many containers are around each other. -/
def Value.depth : Value → Nat
  | .arr vs => 1 + elemsDepth vs
  | .obj ms => 1 + membersDepth ms
  | _ => 0

def elemsDepth : List Value → Nat
  | [] => 0
  | v :: vs => max v.depth (elemsDepth vs)

def membersDepth : List (Bytes × Value) → Nat
  | [] => 0
  | m :: ms => max (memberDepth m) (membersDepth ms)

def memberDepth : Bytes × Value → Nat
  | (_, v) => v.depth

end

mutual

/-- How many values there are, the containers among them. -/
def Value.size : Value → Nat
  | .arr vs => 1 + elemsSize vs
  | .obj ms => 1 + membersSize ms
  | _ => 1

def elemsSize : List Value → Nat
  | [] => 0
  | v :: vs => v.size + elemsSize vs

def membersSize : List (Bytes × Value) → Nat
  | [] => 0
  | m :: ms => memberSize m + membersSize ms

def memberSize : Bytes × Value → Nat
  | (_, v) => v.size

end

/-- A text of a member's name, up to its colon. -/
inductive PrintsKey : Bytes → Bytes → Prop
  | mk {w w' : Bytes} (k : Bytes) (hw : Ws w) (hw' : Ws w') :
      PrintsKey (w ++ 34 :: (jsonEscaped k ++ 34 :: (w' ++ [58]))) k

mutual

/-- A text of a value, after white space. -/
inductive Prints : Bytes → Value → Prop
  | null {w : Bytes} (hw : Ws w) : Prints (w ++ lit "null") .null
  | bool {w : Bytes} (b : Bool) (hw : Ws w) :
      Prints (w ++ if b then lit "true" else lit "false") (.bool b)
  | int {w : Bytes} (i : JsonInt) (hw : Ws w) : Prints (w ++ Dbl.intText i.val) (.int i)
  | str {w : Bytes} (s : Bytes) (hw : Ws w) : Prints (w ++ 34 :: (jsonEscaped s ++ [34])) (.str s)
  | arrNil {w w' : Bytes} (hw : Ws w) (hw' : Ws w') : Prints (w ++ 91 :: (w' ++ [93])) (.arr [])
  | arr {w t : Bytes} {vs : List Value} (hw : Ws w) (h : PrintsElems t vs) :
      Prints (w ++ 91 :: t) (.arr vs)
  | objNil {w w' : Bytes} (hw : Ws w) (hw' : Ws w') : Prints (w ++ 123 :: (w' ++ [125])) (.obj [])
  | obj {w t : Bytes} {ms : List (Bytes × Value)} (hw : Ws w) (h : PrintsMembers t ms) :
      Prints (w ++ 123 :: t) (.obj ms)

/-- A text of the elements of an array, with the bracket that closes it. -/
inductive PrintsElems : Bytes → List Value → Prop
  | last {t w : Bytes} {v : Value} (h : Prints t v) (hw : Ws w) : PrintsElems (t ++ (w ++ [93])) [v]
  | more {t w r : Bytes} {v : Value} {vs : List Value} (h : Prints t v) (hw : Ws w)
      (hr : PrintsElems r vs) : PrintsElems (t ++ (w ++ 44 :: r)) (v :: vs)

/-- A text of the members of an object, with the brace that closes it. -/
inductive PrintsMembers : Bytes → List (Bytes × Value) → Prop
  | last {k key t w : Bytes} {v : Value} (hk : PrintsKey k key) (h : Prints t v) (hw : Ws w) :
      PrintsMembers (k ++ (t ++ (w ++ [125]))) [(key, v)]
  | more {k key t w r : Bytes} {v : Value} {ms : List (Bytes × Value)} (hk : PrintsKey k key)
      (h : Prints t v) (hw : Ws w) (hr : PrintsMembers r ms) :
      PrintsMembers (k ++ (t ++ (w ++ 44 :: r))) ((key, v) :: ms)

end

/-! ## What the vector shows -/

section

variable {F : Type} [Dbl F]

mutual

/-- The value that is read from the node `n` on. -/
def Shows (nodes : List (DocNode F)) : Value → DocNode F → Prop
  | .null, n => n.type = .null
  | .bool b, n => n.type = .bool ∧ n.boolean = b
  | .int i, n => n.type = .number ∧ (i.val < 2 ^ 63 → n.i64 = i.val) ∧ (0 ≤ i.val → n.u64 = i.val)
  | .str s, n => n.type = .string ∧ n.str = s
  | .arr vs, n => n.type = .array ∧ n.count.toNat = vs.length ∧
      ∃ ns, forEach nodes n = some ns ∧ ShowsElems nodes vs ns
  | .obj ms, n => n.type = .object ∧ n.count.toNat = ms.length ∧
      ∃ ns, forEach nodes n = some ns ∧ ShowsMembers nodes ms ns

def ShowsElems (nodes : List (DocNode F)) : List Value → List (DocNode F) → Prop
  | [], ns => ns = []
  | v :: vs, ns => ∃ n ns', ns = n :: ns' ∧ n.key = [] ∧ Shows nodes v n ∧ ShowsElems nodes vs ns'

def ShowsMembers (nodes : List (DocNode F)) : List (Bytes × Value) → List (DocNode F) → Prop
  | [], ns => ns = []
  | m :: ms, ns => ∃ n ns', ns = n :: ns' ∧ ShowsMember nodes m n ∧ ShowsMembers nodes ms ns'

/-- The raw key of a member is its name as it was escaped. -/
def ShowsMember (nodes : List (DocNode F)) : Bytes × Value → DocNode F → Prop
  | (k, v), n => n.key = jsonEscaped k ∧ Shows nodes v n

end

/-! ## The tree of a value -/

mutual

def toNode : Value → Node F
  | .null => .null
  | .bool b => .bool b
  | .int i => intNode i.val
  | .str s => strNode s
  | .arr vs => .array (elems vs)
  | .obj ms => .object (members ms)

def elems : List Value → List (Bytes × Node F)
  | [] => []
  | v :: vs => ([], toNode v) :: elems vs

def members : List (Bytes × Value) → List (Bytes × Node F)
  | [] => []
  | m :: ms => member m :: members ms

def member : Bytes × Value → Bytes × Node F
  | (k, v) => (jsonEscaped k, toNode v)

end

theorem JsonInt.scalar (i : JsonInt) : Scalar (Dbl.intText i.val) (intNode i.val : Node F) := by
  have hlow := i.low
  have hhigh := i.high
  exact scalar_numNode (decText_intText (by omega))

theorem PrintsKey.keyText {k key : Bytes} (h : PrintsKey k key) : KeyText true k (jsonEscaped key) := by
  cases h with
  | mk key hw hw' => exact .object hw (rawStr_jsonEscaped key) hw'

mutual

/-- A printed value is a layout of its tree. -/
theorem Prints.layout {d : Nat} {t : Bytes} {v : Value} (h : Prints t v) (hd : d + v.depth ≤ 256) :
    Layout d t (toNode v : Node F) := by
  match h with
  | .null hw => exact .scalar hd hw .null
  | .bool b hw => exact .scalar hd hw (.bool b)
  | .int i hw => exact .scalar hd hw i.scalar
  | .str s hw => exact .scalar hd hw (.string (rawStr_jsonEscaped s))
  | .arrNil hw hw' => exact .empty false (by omega) hw hw'
  | .arr hw he =>
    rw [Value.depth] at hd
    exact .items (by omega) hw (he.items (by omega))
  | .objNil hw hw' => exact .empty true (by omega) hw hw'
  | .obj hw hm =>
    rw [Value.depth] at hd
    exact .items (by omega) hw (hm.items (by omega))

theorem PrintsElems.items {d : Nat} {t : Bytes} {vs : List Value} (h : PrintsElems t vs)
    (hd : d + 1 + elemsDepth vs ≤ 256) : Items false d t (elems vs : List (Bytes × Node F)) := by
  match h with
  | .last h hw =>
    rw [elemsDepth] at hd
    exact .last .array (h.layout (by omega)) hw
  | .more h hw hr =>
    rw [elemsDepth] at hd
    exact .more .array (h.layout (by omega)) hw (hr.items (by omega))

theorem PrintsMembers.items {d : Nat} {t : Bytes} {ms : List (Bytes × Value)}
    (h : PrintsMembers t ms) (hd : d + 1 + membersDepth ms ≤ 256) :
    Items true d t (members ms : List (Bytes × Node F)) := by
  match h with
  | .last hk h hw =>
    rw [membersDepth, memberDepth] at hd
    exact .last hk.keyText (h.layout (by omega)) hw
  | .more hk h hw hr =>
    rw [membersDepth, memberDepth] at hd
    exact .more hk.keyText (h.layout (by omega)) hw (hr.items (by omega))

end

mutual

theorem size_toNode : (v : Value) → size (toNode v : Node F) = v.size
  | .null | .bool _ | .int _ | .str _ => rfl
  | .arr vs => by rw [toNode, size, sizes_elems, Value.size]
  | .obj ms => by rw [toNode, size, sizes_members, Value.size]

theorem sizes_elems : (vs : List Value) → sizes (elems vs : List (Bytes × Node F)) = elemsSize vs
  | [] => rfl
  | v :: vs => by rw [elems, sizes, sizePair, size_toNode, sizes_elems, elemsSize]

theorem sizes_members : (ms : List (Bytes × Value)) →
    sizes (members ms : List (Bytes × Node F)) = membersSize ms
  | [] => rfl
  | m :: ms => by rw [members, sizes, sizePair_member, sizes_members, membersSize]

theorem sizePair_member : (m : Bytes × Value) → sizePair (member m : Bytes × Node F) = memberSize m
  | (_, v) => size_toNode v

end

/-! ## Walking the vector -/

/-- `part` stands in the vector from index `n` on, where indices are not `kNone`. -/
structure Holds (nodes : List (DocNode F)) (n : Nat) (part : List (DocNode F)) : Prop where
  split : ∃ A B, nodes = A ++ (part ++ B) ∧ A.length = n
  room : n + part.length ≤ 2 ^ 32 - 1

section

variable {nodes : List (DocNode F)} {n : Nat}

omit [Dbl F] in
theorem Holds.append {P Q : List (DocNode F)} (h : Holds nodes n (P ++ Q)) :
    Holds nodes n P ∧ Holds nodes (n + P.length) Q := by
  obtain ⟨⟨A, B, rfl, rfl⟩, hroom⟩ := h
  rw [List.length_append] at hroom
  exact ⟨⟨⟨A, Q ++ B, by simp, rfl⟩, by omega⟩, ⟨⟨A ++ P, B, by simp, by simp⟩, by omega⟩⟩

omit [Dbl F] in
theorem Holds.head {a : DocNode F} {P : List (DocNode F)} (h : Holds nodes n (a :: P)) :
    nodes[n]? = some a ∧ Room n := by
  obtain ⟨⟨A, B, rfl, rfl⟩, hroom⟩ := h
  rw [List.length_cons] at hroom
  exact ⟨by simp, by unfold Room; omega⟩

omit [Dbl F] in
theorem Holds.tail {a : DocNode F} {P : List (DocNode F)} (h : Holds nodes n (a :: P)) :
    Holds nodes (n + 1) P :=
  (Holds.append (P := [a]) h).2

omit [Dbl F] in
theorem Holds.length_le {P : List (DocNode F)} (h : Holds nodes n P) : P.length ≤ nodes.length := by
  obtain ⟨⟨A, B, rfl, -⟩, -⟩ := h
  simp only [List.length_append]
  omega

/-- The roots of the children from index `n` on. -/
def roots (n : Nat) : List (Bytes × Node F) → List (DocNode F)
  | [] => []
  | (key, t) :: cs => root n key (nextAt (n + size t) cs) t :: roots (n + size t) cs

/-- The first child of those from index `n` on, and the others after it. -/
theorem Holds.child {key : Bytes} {t : Node F} {cs : List (Bytes × Node F)}
    (h : Holds nodes n (flatItems n ((key, t) :: cs))) :
    Holds nodes n (flat n key (nextAt (n + size t) cs) t) ∧
      Holds nodes (n + size t) (flatItems (n + size t) cs) := by
  have hparts : Holds nodes n (flat n key (nextAt (n + size t) cs) t ++ flatItems (n + size t) cs) := h
  have := hparts.append
  rwa [length_flat] at this

theorem root_nextSibling (n : Nat) (key : Bytes) (next : UInt32) (t : Node F) :
    (root n key next t).nextSibling = next := by
  cases t <;> rfl

theorem root_key_eq (n : Nat) (key : Bytes) (next : UInt32) (t : Node F) :
    (root n key next t).key = key := by
  cases t <;> rfl

/-- The loop over the children meets each of their roots. -/
theorem siblings_flatItems {cs : List (Bytes × Node F)} (h : Holds nodes n (flatItems n cs))
    {fuel : Nat} (hf : cs.length ≤ fuel) : siblings nodes fuel (nextAt n cs) = some (roots n cs) := by
  induction cs generalizing n fuel with
  | nil =>
    cases fuel with
    | zero => rfl
    | succ fuel => rfl
  | cons c cs ih =>
    obtain ⟨key, t⟩ := c
    obtain ⟨fuel, rfl⟩ : ∃ f, fuel = f + 1 := ⟨fuel - 1, by rw [List.length_cons] at hf; omega⟩
    obtain ⟨hfirst, hrest⟩ := h.child
    rw [flat_eq] at hfirst
    obtain ⟨hget, hroom⟩ := hfirst.head
    have hnext : nextAt n ((key, t) :: cs) = .ofNat n := rfl
    rw [hnext, siblings, if_neg hroom.ne_kNone, hroom.toNat, hget]
    dsimp only
    rw [root_nextSibling, ih hrest (by rw [List.length_cons] at hf; omega)]
    rfl

theorem length_le_sizes : (cs : List (Bytes × Node F)) → cs.length ≤ sizes cs
  | [] => le_rfl
  | (_, t) :: cs => by
    have hpos := size_pos t
    have hrest := length_le_sizes cs
    rw [sizes, sizePair, List.length_cons]
    omega

/-- What the loop over a container's children and its count say. -/
theorem forEach_container (isObj : Bool) {key : Bytes} {next : UInt32}
    {cs : List (Bytes × Node F)} (h : Holds nodes n (flat n key next (container isObj cs))) :
    Holds nodes (n + 1) (flatItems (n + 1) cs) ∧
      (root n key next (container isObj cs)).count.toNat = cs.length ∧
      forEach nodes (root n key next (container isObj cs)) = some (roots (n + 1) cs) := by
  have hcs : Holds nodes (n + 1) (flatItems (n + 1) cs) := by
    cases isObj
    exacts [h.tail, h.tail]
  have hlen : cs.length ≤ (flatItems (n + 1) cs).length := by
    rw [length_flatItems]
    exact length_le_sizes cs
  have hcount : (UInt32.ofNat cs.length).toNat = cs.length :=
    UInt32.toNat_ofNat_of_lt' (by have := hcs.room; exact lt_of_le_of_lt (by omega) (by decide : 2 ^ 32 - 1 < 2 ^ 32))
  have hwalk := siblings_flatItems hcs (hlen.trans hcs.length_le)
  refine ⟨hcs, ?_⟩
  cases isObj
  exacts [⟨hcount, hwalk⟩, ⟨hcount, hwalk⟩]

theorem length_elems (vs : List Value) : (elems vs : List (Bytes × Node F)).length = vs.length := by
  induction vs with
  | nil => rfl
  | cons v vs ih => rw [elems, List.length_cons, List.length_cons, ih]

theorem length_members (ms : List (Bytes × Value)) :
    (members ms : List (Bytes × Node F)).length = ms.length := by
  induction ms with
  | nil => rfl
  | cons m ms ih => rw [members, List.length_cons, List.length_cons, ih]

mutual

/-- Where the flat form of a value's tree stands, the vector shows the value. -/
theorem shows_root {n : Nat} {key : Bytes} {next : UInt32} : (v : Value) →
    Holds nodes n (flat n key next (toNode v)) → Shows nodes v (root n key next (toNode v))
  | .null, _ => rfl
  | .bool _, _ => ⟨rfl, rfl⟩
  | .int i, _ => by
    refine ⟨rfl, fun hi => i64_int i.low hi, fun hi => ?_⟩
    have hu : (Json.u64 (some (intNode (i.val.toNat : Int) : Node F)) : Int) = i.val := by
      have hhigh := i.high
      rw [u64_intNode (by omega)]
      omega
    rw [Int.toNat_of_nonneg hi] at hu
    exact hu
  | .str s, _ => ⟨rfl, str_strNode s⟩
  | .arr vs, h => by
    obtain ⟨hcs, hcount, hwalk⟩ := forEach_container false h
    rw [length_elems] at hcount
    exact ⟨rfl, hcount, _, hwalk, shows_elems vs hcs⟩
  | .obj ms, h => by
    obtain ⟨hcs, hcount, hwalk⟩ := forEach_container true h
    rw [length_members] at hcount
    exact ⟨rfl, hcount, _, hwalk, shows_members ms hcs⟩

theorem shows_elems {n : Nat} : (vs : List Value) → Holds nodes n (flatItems n (elems vs)) →
    ShowsElems nodes vs (roots n (elems vs))
  | [], _ => rfl
  | v :: vs, h => by
    obtain ⟨hv, hvs⟩ := h.child
    exact ⟨_, _, rfl, root_key_eq .., shows_root v hv, shows_elems vs hvs⟩

theorem shows_members {n : Nat} : (ms : List (Bytes × Value)) →
    Holds nodes n (flatItems n (members ms)) → ShowsMembers nodes ms (roots n (members ms))
  | [], _ => rfl
  | (k, v) :: ms, h => by
    obtain ⟨hv, hms⟩ := h.child
    exact ⟨_, _, rfl, ⟨root_key_eq .., shows_root v hv⟩, shows_members ms hms⟩

end

end

/-- A printed value of fewer than 2^32 values is a document that shows it. -/
theorem shows_printed {t w : Bytes} {v : Value} (h : Prints t v) (hw : Ws w) (hd : v.depth ≤ 256)
    (hs : v.size < 2 ^ 32) : ∃ (nodes : List (DocNode F)) (n : DocNode F),
      parseDoc (t ++ w) = .ok nodes ∧ nodes[0]? = some n ∧ Shows nodes v n := by
  have hparse : parse (t ++ w) = .ok (toNode v : Node F) := (h.layout (by omega)).parse hw
  have hsize : size (toNode v : Node F) < 2 ^ 32 := by rwa [size_toNode]
  have hholds : Holds (flat 0 [] kNone (toNode v : Node F)) 0 (flat 0 [] kNone (toNode v)) :=
    ⟨⟨[], [], by simp, rfl⟩, by rw [length_flat]; omega⟩
  exact ⟨_, _, parseDoc_flat hparse hsize, by rw [flat_eq]; rfl, shows_root v hholds⟩

/-- A larger one is no document. -/
theorem printed_large {t w : Bytes} {v : Value} (h : Prints t v) (hw : Ws w) (hd : v.depth ≤ 256)
    (hs : 2 ^ 32 ≤ v.size) (nodes : List (DocNode F)) : parseDoc (t ++ w) ≠ .ok nodes := by
  have hparse : parse (t ++ w) = .ok (toNode v : Node F) := (h.layout (by omega)).parse hw
  exact parseDoc_large hparse (by rwa [size_toNode]) nodes

end

/-! ## Every value has a text -/

mutual

/-- The text without white space. -/
def Value.text : Value → Bytes
  | .null => lit "null"
  | .bool b => if b then lit "true" else lit "false"
  | .int i => Dbl.intText i.val
  | .str s => 34 :: (jsonEscaped s ++ [34])
  | .arr vs => 91 :: elemsText vs
  | .obj ms => 123 :: membersText ms

def elemsText : List Value → Bytes
  | [] => [93]
  | [v] => v.text ++ [93]
  | v :: vs => v.text ++ 44 :: elemsText vs

def membersText : List (Bytes × Value) → Bytes
  | [] => [125]
  | [m] => memberText m ++ [125]
  | m :: ms => memberText m ++ 44 :: membersText ms

def memberText : Bytes × Value → Bytes
  | (k, v) => 34 :: (jsonEscaped k ++ 34 :: 58 :: v.text)

end

theorem ws_nil : Ws [] := fun _ h => absurd h List.not_mem_nil

theorem printsKey_plain (k : Bytes) : PrintsKey (34 :: (jsonEscaped k ++ [34, 58])) k :=
  .mk k ws_nil ws_nil

mutual

theorem prints_text : (v : Value) → Prints v.text v
  | .null => .null ws_nil
  | .bool b => .bool b ws_nil
  | .int i => .int i ws_nil
  | .str s => .str s ws_nil
  | .arr [] => .arrNil ws_nil ws_nil
  | .arr (v :: vs) => .arr ws_nil (prints_elems (v :: vs) (List.cons_ne_nil v vs))
  | .obj [] => .objNil ws_nil ws_nil
  | .obj (m :: ms) => .obj ws_nil (prints_members (m :: ms) (List.cons_ne_nil m ms))

theorem prints_elems : (vs : List Value) → vs ≠ [] → PrintsElems (elemsText vs) vs
  | [], h => absurd rfl h
  | [v], _ => .last (prints_text v) ws_nil
  | v :: v' :: vs, _ =>
    .more (prints_text v) ws_nil (prints_elems (v' :: vs) (List.cons_ne_nil v' vs))

theorem prints_members : (ms : List (Bytes × Value)) → ms ≠ [] → PrintsMembers (membersText ms) ms
  | [], h => absurd rfl h
  | [(k, v)], _ => by
    have h := PrintsMembers.last (printsKey_plain k) (prints_text v) ws_nil
    simpa [membersText, memberText] using h
  | (k, v) :: m :: ms, _ => by
    have hr := prints_members (m :: ms) (List.cons_ne_nil m ms)
    have h := PrintsMembers.more (printsKey_plain k) (prints_text v) ws_nil hr
    simpa [membersText, memberText] using h

end

/-! ## Strings and documents survive the parser -/

/-- Any string, escaped and in quotes, is a document that shows it, and so is any text of a value
of fewer than 2^32 values at most 256 deep. -/
theorem documents_survive {F : Type} [Dbl F] :
    (∀ s : Bytes, ∃ (nodes : List (DocNode F)) (n : DocNode F),
      parseDoc (34 :: (jsonEscaped s ++ [34])) = .ok nodes ∧ nodes[0]? = some n ∧ n.str = s) ∧
    ∀ (t w : Bytes) (v : Value), Prints t v → Ws w → v.depth ≤ 256 → v.size < 2 ^ 32 →
      ∃ (nodes : List (DocNode F)) (n : DocNode F),
        parseDoc (t ++ w) = .ok nodes ∧ nodes[0]? = some n ∧ Shows nodes v n := by
  refine ⟨fun s => ?_, fun t w v h hw hd hs => shows_printed h hw hd hs⟩
  obtain ⟨nodes, n, hdoc, hroot, -, hstr⟩ := shows_printed (F := F) (prints_text (.str s)) ws_nil
    (Nat.zero_le _) (by decide : (1 : Nat) < 2 ^ 32)
  rw [List.append_nil] at hdoc
  exact ⟨nodes, n, hdoc, hroot, hstr⟩

/-- `{"a":[7,"\n",null]}` with a line feed after it. -/
theorem documents_survive_object :
    let v := Value.obj [([97], .arr [.int ⟨7, by decide, by decide⟩, .str [10], .null])]
    ∃ (nodes : List (DocNode ℚ)) (n : DocNode ℚ),
      parseDoc (v.text ++ [10]) = .ok nodes ∧ nodes[0]? = some n ∧ Shows nodes v n :=
  documents_survive.2 _ _ _ (prints_text _) (fun c hc => by obtain rfl := List.mem_singleton.mp hc; rfl)
    (by decide) (by decide)

theorem elemsSize_replicate (k : Nat) : elemsSize (List.replicate k .null) = k := by
  induction k with
  | zero => rfl
  | succ k ih =>
    rw [List.replicate_succ, elemsSize, ih]
    exact Nat.add_comm 1 k

theorem elemsDepth_replicate (k : Nat) : elemsDepth (List.replicate k .null) = 0 := by
  induction k with
  | zero => rfl
  | succ k ih =>
    rw [List.replicate_succ, elemsDepth, ih]
    rfl

/-- The text of an array of 2^32 - 1 times `null` is refused: the last of them would have the index
that is none. -/
theorem documents_overflow :
    ¬ ∀ (t w : Bytes) (v : Value), Prints t v → Ws w → v.depth ≤ 256 →
      ∃ (nodes : List (DocNode ℚ)) (n : DocNode ℚ),
        parseDoc (t ++ w) = .ok nodes ∧ nodes[0]? = some n ∧ Shows nodes v n := by
  intro hall
  obtain ⟨vs, hvs⟩ : ∃ vs, vs = List.replicate (2 ^ 32 - 1) Value.null := ⟨_, rfl⟩
  have hdepth : (Value.arr vs).depth ≤ 256 := by
    rw [Value.depth, hvs, elemsDepth_replicate]
    decide
  have hsize : 2 ^ 32 ≤ (Value.arr vs).size := by
    rw [Value.size, hvs, elemsSize_replicate]
    decide
  obtain ⟨nodes, _, hdoc, -⟩ := hall _ [] _ (prints_text (.arr vs)) ws_nil hdepth
  exact printed_large (prints_text _) ws_nil hdepth hsize nodes hdoc

end Stok.Json
