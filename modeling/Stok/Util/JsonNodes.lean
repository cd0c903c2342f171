import Stok.Util.JsonDoc
import Stok.Util.JsonLayout

/-!
# The tree in the node vector

`flat n key next t` is the part of the vector that holds the tree `t` from index `n` on: its root, with
the key and the sibling that its container gave it, and then its children one after the other.
Where the tree parser reads a tree, `docValue` appends its flat form (`docValue_flat`), as long as
the indices are below `kNone`; past that it fails (`docValue_large`).
-/

namespace Stok.Json

variable {F : Type} [Dbl F]

/-! ## Flat trees -/

mutual

/-- The number of nodes. -/
def size : Node F → Nat
  | .array cs => 1 + sizes cs
  | .object cs => 1 + sizes cs
  | _ => 1

def sizes : List (Bytes × Node F) → Nat
  | [] => 0
  | c :: cs => sizePair c + sizes cs

def sizePair : Bytes × Node F → Nat
  | (_, t) => size t

end

/-- The root of a tree at index `n`. -/
def root (n : Nat) (key : Bytes) (next : UInt32) : Node F → DocNode F
  | .array cs =>
    { type := .array, firstChild := if cs.isEmpty then kNone else .ofNat (n + 1), nextSibling := next,
      count := .ofNat cs.length, key := key, number := Dbl.ofRat 0 }
  | .object cs =>
    { type := .object, firstChild := if cs.isEmpty then kNone else .ofNat (n + 1), nextSibling := next,
      count := .ofNat cs.length, key := key, number := Dbl.ofRat 0 }
  | t => { scalarNode t with nextSibling := next, key := key }

/-- The sibling of a child that ends at index `n`. -/
def nextAt (n : Nat) (cs : List (Bytes × Node F)) : UInt32 := if cs.isEmpty then kNone else .ofNat n

mutual

def flat (n : Nat) (key : Bytes) (next : UInt32) : Node F → List (DocNode F)
  | .array cs => root n key next (.array cs) :: flatItems (n + 1) cs
  | .object cs => root n key next (.object cs) :: flatItems (n + 1) cs
  | .null => [root n key next .null]
  | .bool b => [root n key next (.bool b)]
  | .number raw v => [root n key next (.number raw v)]
  | .string raw => [root n key next (.string raw)]

def flatItems (n : Nat) : List (Bytes × Node F) → List (DocNode F)
  | [] => []
  | c :: cs => flatPair n (nextAt (n + sizePair c) cs) c ++ flatItems (n + sizePair c) cs

def flatPair (n : Nat) (next : UInt32) : Bytes × Node F → List (DocNode F)
  | (key, t) => flat n key next t

end

/-- The nodes after the root of a tree at index `n`. -/
def below (n : Nat) : Node F → List (DocNode F)
  | .array cs => flatItems (n + 1) cs
  | .object cs => flatItems (n + 1) cs
  | _ => []

theorem flat_eq (n : Nat) (key : Bytes) (next : UInt32) (t : Node F) :
    flat n key next t = root n key next t :: below n t := by
  cases t <;> rfl

mutual

theorem length_flat (n : Nat) (key : Bytes) (next : UInt32) : (t : Node F) →
    (flat n key next t).length = size t
  | .array cs => by rw [flat, List.length_cons, length_flatItems, size, Nat.add_comm]
  | .object cs => by rw [flat, List.length_cons, length_flatItems, size, Nat.add_comm]
  | .null | .bool _ | .number _ _ | .string _ => rfl

theorem length_flatItems (n : Nat) : (cs : List (Bytes × Node F)) → (flatItems n cs).length = sizes cs
  | [] => rfl
  | c :: cs => by rw [flatItems, List.length_append, length_flatPair, length_flatItems, sizes]

theorem length_flatPair (n : Nat) (next : UInt32) : (c : Bytes × Node F) →
    (flatPair n next c).length = sizePair c
  | (key, t) => length_flat n key next t

end

theorem size_pos (t : Node F) : 0 < size t := by
  rw [← length_flat 0 [] kNone t, flat_eq, List.length_cons]
  exact Nat.succ_pos _

omit [Dbl F] in
theorem size_container (isObj : Bool) (cs : List (Bytes × Node F)) :
    size (container isObj cs) = 1 + sizes cs := by
  cases isObj <;> rfl

theorem flat_container (n : Nat) (isObj : Bool) (cs : List (Bytes × Node F)) :
    flat n [] kNone (container isObj cs) = { (containerNode isObj : DocNode F) with
      firstChild := if cs.isEmpty then kNone else .ofNat (n + 1), count := .ofNat cs.length } ::
      flatItems (n + 1) cs := by
  cases isObj <;> rfl

/-- A node that is no container. -/
def IsScalar : Node F → Prop
  | .array _ | .object _ => False
  | _ => True

theorem flat_scalar {t : Node F} (h : IsScalar t) (n : Nat) : flat n [] kNone t = [scalarNode t] := by
  cases t with
  | array cs => exact h.elim
  | object cs => exact h.elim
  | null => rfl
  | bool b => rfl
  | number raw v => rfl
  | string raw => rfl

theorem size_scalar {t : Node F} (h : IsScalar t) : size t = 1 := by
  rw [← length_flat 0 [] kNone t, flat_scalar h]
  rfl

theorem parseScalar_isScalar {s rest : Bytes} {t : Node F} (h : parseScalar s = .ok (t, rest)) :
    IsScalar t := by
  unfold parseScalar at h
  split at h
  · cases h
  · split at h
    · split at h
      · cases h
      · cases h
        trivial
    · split_ifs at h
      · cases h
        trivial
      · cases h
        trivial
      · cases h
        trivial
      · dsimp only at h
        split at h
        · cases h
        · cases h
          trivial
      · cases h

/-! ## Nodes that are changed in place -/

theorem modify_left {α : Type} {A B : List α} {i : Nat} (h : i < A.length) (f : α → α) :
    (A ++ B).modify i f = A.modify i f ++ B := by
  induction A generalizing i with
  | nil => cases h
  | cons a A ih =>
    cases i with
    | zero => rfl
    | succ i => exact congrArg (a :: ·) (ih (Nat.lt_of_succ_lt_succ h))

theorem modify_head {α : Type} {A B : List α} {a : α} (f : α → α) :
    (A ++ a :: B).modify A.length f = A ++ f a :: B := by
  induction A with
  | nil => rfl
  | cons b A ih => exact congrArg (b :: ·) ih

omit [Dbl F] in
theorem link_left {A B : List (DocNode F)} {idx prev : UInt32} (hi : idx.toNat < A.length)
    (hp : prev = kNone ∨ prev.toNat < A.length) (child : UInt32) :
    link (A ++ B) idx prev child = link A idx prev child ++ B := by
  unfold link
  split
  case isTrue => exact modify_left hi _
  case isFalse h => exact modify_left (hp.resolve_left h) _

omit [Dbl F] in
@[simp] theorem length_link (nodes : List (DocNode F)) (idx prev child : UInt32) :
    (link nodes idx prev child).length = nodes.length := by
  unfold link
  split <;> exact List.length_modify ..

/-! ## Indices -/

/-- An index that is not `kNone`. -/
def Room (n : Nat) : Prop := n < 2 ^ 32 - 1

theorem Room.toNat {n : Nat} (h : Room n) : (UInt32.ofNat n).toNat = n := by
  have hn : n < 2 ^ 32 - 1 := h
  exact UInt32.toNat_ofNat_of_lt' (lt_trans hn (by decide))

theorem Room.ne_kNone {n : Nat} (h : Room n) : UInt32.ofNat n ≠ kNone := by
  intro e
  have hn := h.toNat
  rw [e, show kNone.toNat = 2 ^ 32 - 1 from rfl] at hn
  exact absurd hn (ne_of_gt h)

theorem Room.of_le {m n : Nat} (h : Room n) (hle : m ≤ n) : Room m := lt_of_le_of_lt hle h

theorem flat_key {A : List (DocNode F)} {key : Bytes} {next : UInt32} {t : Node F}
    {f : DocNode F → DocNode F} {key' : Bytes} {next' : UInt32}
    (hf : f (root A.length key next t) = root A.length key' next' t) :
    (A ++ flat A.length key next t).modify A.length f = A ++ flat A.length key' next' t := by
  rw [flat_eq, flat_eq, modify_head, hf]

theorem root_key (n : Nat) (key key' : Bytes) (next : UInt32) (t : Node F) :
    { root n key next t with key := key' } = root n key' next t := by
  cases t <;> rfl

theorem root_next (n : Nat) (key : Bytes) (next next' : UInt32) (t : Node F) :
    { root n key next t with nextSibling := next' } = root n key next' t := by
  cases t <;> rfl

/-! ## One turn of each parser -/

/-- What a value that was read can be: a container without children, one with some, a scalar. -/
theorem parseValue_ok {fuel d : Nat} {s rest : Bytes} {t : Node F}
    (h : parseValue (fuel + 1) d s = .ok (t, rest)) :
    d ≤ 256 ∧ ∃ c u, skipWs s = c :: u ∧
      ((∃ isObj, c = opening isObj ∧ (skipWs u).head? = some (closing isObj) ∧
          t = container isObj [] ∧ rest = (skipWs u).tail) ∨
        (∃ isObj cs, c = opening isObj ∧ (skipWs u).head? ≠ some (closing isObj) ∧
          parseItems isObj fuel d (skipWs u) = .ok (cs, rest) ∧ t = container isObj cs) ∨
        (¬ (c = ch '{' ∨ c = ch '[') ∧ parseScalar (c :: u) = .ok (t, rest))) := by
  rw [parseValue] at h
  split at h
  · cases h
  rename_i hd
  refine ⟨not_lt.1 hd, ?_⟩
  split at h
  · cases h
  rename_i c u hs
  refine ⟨c, u, hs, ?_⟩
  split at h
  · rename_i hc
    obtain ⟨isObj, rfl⟩ : ∃ isObj, c = opening isObj := by
      rcases hc with rfl | rfl
      exacts [⟨true, rfl⟩, ⟨false, rfl⟩]
    have hobj : decide (opening isObj = ch '{') = isObj := by cases isObj <;> rfl
    simp only [hobj] at h
    split at h
    · rename_i he
      cases h
      refine .inl ⟨isObj, rfl, he, ?_, rfl⟩
      cases isObj <;> rfl
    · rename_i he
      cases hi : parseItems (F := F) isObj fuel d (skipWs u) with
      | error e =>
        rw [hi] at h
        cases h
      | ok p =>
        obtain ⟨cs, r⟩ := p
        rw [hi] at h
        cases h
        refine .inr (.inl ⟨isObj, cs, rfl, he, hi, ?_⟩)
        cases isObj <;> rfl
  · rename_i hc
    exact .inr (.inr ⟨hc, h⟩)

/-- The child that was read and what comes after it: the rest of the children or the end. -/
theorem parseItems_ok {isObj : Bool} {fuel d : Nat} {s rest : Bytes} {cs : List (Bytes × Node F)}
    (h : parseItems isObj (fuel + 1) d s = .ok (cs, rest)) :
    ∃ key s' t s'', childKey isObj s = .ok (key, s') ∧
      parseValue fuel (d + 1) s' = .ok (t, s'') ∧
      ((∃ r cs', skipWs s'' = ch ',' :: r ∧ parseItems isObj fuel d r = .ok (cs', rest) ∧
          cs = (key, t) :: cs') ∨
        (skipWs s'' = closing isObj :: rest ∧ cs = [(key, t)])) := by
  cases hk : childKey isObj s with
  | error e =>
    cases isObj with
    | false => cases hk
    | true =>
      have hk' : parseKey s = .error e := hk
      rw [parseItems] at h
      simp only [bind, Except.bind, hk', if_true] at h
      cases h
  | ok p =>
    obtain ⟨key, s'⟩ := p
    cases hv : parseValue (F := F) fuel (d + 1) s' with
    | error e =>
      exfalso
      cases isObj with
      | false =>
        cases hk
        rw [parseItems] at h
        simp only [bind, Except.bind, hv] at h
        cases h
      | true =>
        have hk' : parseKey s = .ok (key, s') := hk
        rw [parseItems] at h
        simp only [bind, Except.bind, hk', hv, if_true] at h
        cases h
    | ok p =>
      obtain ⟨t, s''⟩ := p
      refine ⟨key, s', t, s'', rfl, hv, ?_⟩
      rw [parseItems_child hk hv] at h
      split at h
      · cases h
      rename_i c r hs
      split at h
      · rename_i hc
        cases hi : parseItems (F := F) isObj fuel d r with
        | error e =>
          rw [hi] at h
          cases h
        | ok p =>
          rw [hi] at h
          cases h
          exact .inl ⟨r, p.1, hc ▸ hs, hi, rfl⟩
      · split at h
        · rename_i hc
          cases h
          exact .inr ⟨hc ▸ hs, rfl⟩
        · cases h

/-- The vector when a child has its place in the container at `idx`. -/
def attach (nodes : List (DocNode F)) (idx prev child : UInt32) (key : Bytes) : List (DocNode F) :=
  (link (nodes.modify child.toNat fun n => { n with key := key }) idx prev child).modify idx.toNat
    fun n => { n with count := n.count + 1 }

theorem docItems_step {isObj : Bool} {fuel d : Nat} {s key s' s'' : Bytes} {idx prev child : UInt32}
    {nodes nodes' : List (DocNode F)}
    (hk : childKey isObj s = .ok (key, s'))
    (hv : docValue fuel (d + 1) s' nodes = .ok (child, s'', nodes')) (hc : child ≠ kNone) :
    docItems isObj (fuel + 1) d idx prev s nodes =
      match skipWs s'' with
      | [] => docFail "unexpected end in container" []
      | c :: rest =>
        if c = ch ',' then docItems isObj fuel d idx child rest (attach nodes' idx prev child key)
        else if c = closing isObj then .ok (rest, attach nodes' idx prev child key)
        else docFail "expected ',' or close" (c :: rest) := by
  unfold childKey at hk
  simp only [docItems, hk, hv, if_neg hc]
  rfl

/-- A value takes the next index. -/
theorem docValue_index {fuel d : Nat} {s rest : Bytes} {nodes nodes' : List (DocNode F)}
    {i : UInt32} (h : docValue fuel d s nodes = .ok (i, rest, nodes')) :
    i = .ofNat nodes.length := by
  cases fuel with
  | zero => cases h
  | succ fuel =>
    rw [docValue] at h
    split at h
    · cases h
    split at h
    · cases h
    dsimp only at h
    split at h
    · split at h
      · cases h
        rfl
      · cases hi : docItems (F := F) (decide (_ = ch '{')) fuel d (.ofNat nodes.length) kNone _ _ with
        | error e =>
          rw [hi] at h
          cases h
        | ok p =>
          rw [hi] at h
          cases h
          rfl
    · split at h
      · cases h
      · cases h
        rfl

/-! ## The children of a container -/

/-- The vector when the children `cs` have their places in the container at `idx`, after the child
at `prev`. -/
def adopt (nodes : List (DocNode F)) (idx prev : UInt32) (cs : List (Bytes × Node F)) :
    List (DocNode F) :=
  ((link nodes idx prev (.ofNat nodes.length)).modify idx.toNat
    fun n => { n with count := n.count + .ofNat cs.length }) ++ flatItems nodes.length cs

/-- The places that `idx` and `prev` name are in the vector. -/
structure Places (nodes : List (DocNode F)) (idx prev : UInt32) : Prop where
  parent : idx.toNat < nodes.length
  before : prev = kNone ∨ prev.toNat < nodes.length

section

variable {nodes : List (DocNode F)} {idx prev : UInt32}

theorem attach_flat (hp : Places nodes idx prev) (hr : Room nodes.length) (key : Bytes)
    (t : Node F) :
    attach (nodes ++ flat nodes.length [] kNone t) idx prev (.ofNat nodes.length) key =
      ((link nodes idx prev (.ofNat nodes.length)).modify idx.toNat
        fun n => { n with count := n.count + 1 }) ++ flat nodes.length key kNone t := by
  rw [attach, hr.toNat, flat_key (root_key ..), link_left hp.parent hp.before,
    modify_left (by rw [length_link]; exact hp.parent)]

theorem length_attach (hp : Places nodes idx prev) (hr : Room nodes.length) (key : Bytes)
    (t : Node F) :
    (attach (nodes ++ flat nodes.length [] kNone t) idx prev (.ofNat nodes.length) key).length =
      nodes.length + size t := by
  rw [attach_flat hp hr, List.length_append, List.length_modify, length_link, length_flat]

/-- The container takes no more children after this one. -/
theorem adopt_last (hp : Places nodes idx prev) (hr : Room nodes.length) (key : Bytes)
    (t : Node F) :
    attach (nodes ++ flat nodes.length [] kNone t) idx prev (.ofNat nodes.length) key =
      adopt nodes idx prev [(key, t)] := by
  rw [attach_flat hp hr, adopt, flatItems, flatItems, List.append_nil]
  rfl

/-- The children after this one take their places. -/
theorem adopt_cons (hp : Places nodes idx prev) {t : Node F} (hr : Room (nodes.length + size t))
    (key : Bytes) {cs : List (Bytes × Node F)} (hcs : cs ≠ []) :
    adopt (attach (nodes ++ flat nodes.length [] kNone t) idx prev (.ofNat nodes.length) key) idx
      (.ofNat nodes.length) cs = adopt nodes idx prev ((key, t) :: cs) := by
  have hr' : Room nodes.length := hr.of_le (Nat.le_add_right ..)
  have hlen := length_attach hp hr' key t
  rw [adopt, hlen, attach_flat hp hr']
  obtain ⟨M, hM⟩ : ∃ M, M = (link nodes idx prev (.ofNat nodes.length)).modify idx.toNat
      fun n => { n with count := n.count + 1 } := ⟨_, rfl⟩
  have hMlen : M.length = nodes.length := by rw [hM, List.length_modify, length_link]
  have hnext : (M ++ flat nodes.length key kNone t).modify nodes.length
      (fun n => { n with nextSibling := .ofNat (nodes.length + size t) }) =
      M ++ flat nodes.length key (.ofNat (nodes.length + size t)) t := by
    rw [← hMlen]
    exact flat_key (root_next ..)
  have hat : nextAt (nodes.length + sizePair (key, t)) cs = .ofNat (nodes.length + size t) := by
    cases cs with
    | nil => exact absurd rfl hcs
    | cons c cs => rfl
  rw [← hM, link, if_neg hr'.ne_kNone, hr'.toNat, hnext,
    modify_left (by rw [hMlen]; exact hp.parent), hM, List.modify_modify_eq, adopt, flatItems, hat,
    List.append_assoc]
  congr 2
  funext n
  have hcount : n.count + 1 + UInt32.ofNat cs.length = n.count + UInt32.ofNat (cs.length + 1) := by
    rw [UInt32.ofNat_add, UInt32.add_assoc, UInt32.add_comm 1]
    rfl
  exact congrArg (fun k => { n with count := k }) hcount

/-- A container that was just appended, with its children. -/
theorem adopt_container (hr : Room nodes.length) (isObj : Bool) {cs : List (Bytes × Node F)}
    (hcs : cs ≠ []) :
    adopt (nodes ++ [containerNode isObj]) (.ofNat nodes.length) kNone cs =
      nodes ++ flat nodes.length [] kNone (container isObj cs) := by
  have hempty : cs.isEmpty = false := by
    cases cs with
    | nil => exact absurd rfl hcs
    | cons c cs => rfl
  rw [adopt, link, if_pos rfl, hr.toNat, modify_head, modify_head, flat_container, hempty]
  simp [containerNode]

end

/-! ## The parser of the vector follows the parser of the tree -/

theorem Places.attach {nodes : List (DocNode F)} {idx prev : UInt32} (hp : Places nodes idx prev)
    {t : Node F} (hr : Room nodes.length) (key : Bytes) :
    Places (attach (nodes ++ flat nodes.length [] kNone t) idx prev (.ofNat nodes.length) key) idx
      (.ofNat nodes.length) := by
  have hlen := length_attach hp hr key t
  have hpos := size_pos t
  have hidx := hp.parent
  exact ⟨by omega, .inr (by rw [hr.toNat]; omega)⟩

theorem places_root {nodes : List (DocNode F)} (hr : Room nodes.length) (isObj : Bool) :
    Places (nodes ++ [containerNode isObj]) (.ofNat nodes.length) kNone :=
  ⟨by rw [hr.toNat, List.length_append]; exact Nat.lt_succ_self _, .inl rfl⟩

section

variable {fuel d : Nat} {s u rest : Bytes} {isObj : Bool}

theorem docValue_container (hd : d ≤ 256) (hs : skipWs s = opening isObj :: u)
    (nodes : List (DocNode F)) :
    docValue (fuel + 1) d s nodes =
      if (skipWs u).head? = some (closing isObj) then
        .ok (.ofNat nodes.length, (skipWs u).tail, nodes ++ [containerNode isObj])
      else (docItems isObj fuel d (.ofNat nodes.length) kNone (skipWs u)
        (nodes ++ [containerNode isObj])).map fun (rest, nodes') =>
          (.ofNat nodes.length, rest, nodes') := by
  rw [docValue, if_neg (not_lt.2 hd), hs]
  cases isObj <;> rfl

theorem docValue_scalar (hd : d ≤ 256) {c : UInt8} (hs : skipWs s = c :: u)
    (hc : ¬ (c = ch '{' ∨ c = ch '[')) {t : Node F} (ht : parseScalar (c :: u) = .ok (t, rest))
    (nodes : List (DocNode F)) :
    docValue (fuel + 1) d s nodes = .ok (.ofNat nodes.length, rest, nodes ++ [scalarNode t]) := by
  rw [docValue, if_neg (not_lt.2 hd), hs]
  simp only [if_neg hc, ht]

theorem parseItems_ne_nil {cs : List (Bytes × Node F)}
    (h : parseItems isObj fuel d s = .ok (cs, rest)) : cs ≠ [] := by
  cases fuel with
  | zero => cases h
  | succ fuel =>
    obtain ⟨_, _, _, _, -, -, ⟨_, _, -, -, rfl⟩ | ⟨-, rfl⟩⟩ := parseItems_ok h
    · exact List.cons_ne_nil _ _
    · exact List.cons_ne_nil _ _

/-- A child without an index ends the loop. -/
theorem docItems_none {key s' : Bytes} {idx prev : UInt32} {nodes : List (DocNode F)}
    (hk : childKey isObj s = .ok (key, s'))
    (hv : ∀ i r ns, docValue fuel (d + 1) s' nodes = .ok (i, r, ns) → i = kNone) (r) :
    docItems isObj (fuel + 1) d idx prev s nodes ≠ .ok r := by
  intro h
  unfold childKey at hk
  simp only [docItems, hk] at h
  split at h
  · cases h
  · rename_i i r ns hi
    rw [if_pos (hv _ _ _ hi)] at h
    cases h

end

theorem sizes_pos : {cs : List (Bytes × Node F)} → cs ≠ [] → 0 < sizes cs
  | [], h => absurd rfl h
  | (_, t) :: _, _ => Nat.add_pos_left (size_pos t) _

mutual

/-- A value that the tree parser reads is appended to the vector in its flat form. -/
theorem docValue_flat {fuel d : Nat} {s rest : Bytes} {t : Node F}
    (h : parseValue fuel d s = .ok (t, rest)) (nodes : List (DocNode F))
    (hsize : nodes.length + size t ≤ 2 ^ 32 - 1) :
    docValue fuel d s nodes =
      .ok (.ofNat nodes.length, rest, nodes ++ flat nodes.length [] kNone t) := by
  match fuel with
  | 0 => cases h
  | fuel + 1 =>
    have hr : Room nodes.length := by
      have := size_pos t
      unfold Room
      omega
    obtain ⟨hd, c, u, hs, ⟨isObj, rfl, he, rfl, rfl⟩ | ⟨isObj, cs, rfl, he, hi, rfl⟩ | ⟨hc, hp⟩⟩ :=
      parseValue_ok h
    · rw [docValue_container hd hs, if_pos he, flat_container]
      rfl
    · have hcs := parseItems_ne_nil hi
      have hlen : (nodes ++ [(containerNode isObj : DocNode F)]).length = nodes.length + 1 := by simp
      rw [size_container] at hsize
      rw [docValue_container hd hs, if_neg he,
        docItems_flat hi (places_root hr isObj) (by rw [hlen]; omega), adopt_container hr isObj hcs]
      rfl
    · rw [docValue_scalar hd hs hc hp, flat_scalar (parseScalar_isScalar hp)]

theorem docItems_flat {isObj : Bool} {fuel d : Nat} {s rest : Bytes} {cs : List (Bytes × Node F)}
    (h : parseItems isObj fuel d s = .ok (cs, rest)) {nodes : List (DocNode F)} {idx prev : UInt32}
    (hp : Places nodes idx prev) (hsize : nodes.length + sizes cs ≤ 2 ^ 32 - 1) :
    docItems isObj fuel d idx prev s nodes = .ok (rest, adopt nodes idx prev cs) := by
  match fuel with
  | 0 => cases h
  | fuel + 1 =>
    obtain ⟨key, s', t, s'', hk, hv, hend⟩ := parseItems_ok h
    have hpos := size_pos t
    have hle : size t ≤ sizes cs := by
      rcases hend with ⟨r, cs', -, -, rfl⟩ | ⟨-, rfl⟩
      exacts [Nat.le_add_right .., Nat.le_add_right ..]
    have hr : Room nodes.length := by
      unfold Room
      omega
    rw [docItems_step hk (docValue_flat hv nodes (by omega)) hr.ne_kNone]
    obtain ⟨r, cs', hs, hi, rfl⟩ | ⟨hs, rfl⟩ := hend
    · have hcs := parseItems_ne_nil hi
      have hlen := length_attach hp hr key t
      have hsize' : nodes.length + (size t + sizes cs') ≤ 2 ^ 32 - 1 := hsize
      have hpos' := sizes_pos hcs
      have hrt : Room (nodes.length + size t) := by
        unfold Room
        omega
      simp only [hs, if_true]
      rw [docItems_flat hi (hp.attach hr key) (by rw [hlen]; omega), adopt_cons hp hrt key hcs]
    · have hne : closing isObj ≠ ch ',' := (isNumByte_closing isObj).2.2
      simp only [hs, if_neg hne, if_true]
      rw [adopt_last hp hr]

end

mutual

/-- A value for which the indices do not last gets none. -/
theorem docValue_large {fuel d : Nat} {s rest : Bytes} {t : Node F}
    (h : parseValue fuel d s = .ok (t, rest)) {nodes : List (DocNode F)}
    (hn : nodes.length ≤ 2 ^ 32 - 1) (hsize : 2 ^ 32 - 1 < nodes.length + size t) (i : UInt32)
    (r : Bytes) (ns : List (DocNode F)) (hdoc : docValue fuel d s nodes = .ok (i, r, ns)) :
    i = kNone := by
  match fuel with
  | 0 => cases h
  | fuel + 1 =>
    have hi := docValue_index hdoc
    rcases hn.eq_or_lt with heq | hr
    · rw [hi, heq]
      rfl
    exfalso
    obtain ⟨hd, c, u, hs, ⟨isObj, rfl, he, rfl, rfl⟩ | ⟨isObj, cs, rfl, he, hi, rfl⟩ | ⟨hc, hp⟩⟩ :=
      parseValue_ok h
    · rw [size_container, sizes] at hsize
      omega
    · rw [size_container] at hsize
      have hlen : (nodes ++ [(containerNode isObj : DocNode F)]).length = nodes.length + 1 := by simp
      rw [docValue_container hd hs, if_neg he] at hdoc
      cases hdi : docItems isObj fuel d (.ofNat nodes.length) kNone (skipWs u)
          (nodes ++ [(containerNode isObj : DocNode F)]) with
      | error e =>
        rw [hdi] at hdoc
        cases hdoc
      | ok p =>
        exact docItems_large hi (places_root hr isObj) (by rw [hlen]; omega)
          (by rw [hlen]; omega) p hdi
    · rw [size_scalar (parseScalar_isScalar hp)] at hsize
      omega

theorem docItems_large {isObj : Bool} {fuel d : Nat} {s rest : Bytes} {cs : List (Bytes × Node F)}
    (h : parseItems isObj fuel d s = .ok (cs, rest)) {nodes : List (DocNode F)} {idx prev : UInt32}
    (hp : Places nodes idx prev) (hn : nodes.length ≤ 2 ^ 32 - 1)
    (hsize : 2 ^ 32 - 1 < nodes.length + sizes cs) (r) :
    docItems isObj fuel d idx prev s nodes ≠ .ok r := by
  match fuel with
  | 0 => cases h
  | fuel + 1 =>
    obtain ⟨key, s', t, s'', hk, hv, hend⟩ := parseItems_ok h
    have hpos := size_pos t
    rcases Nat.lt_or_ge (2 ^ 32 - 1) (nodes.length + size t) with hlarge | hfit
    · exact docItems_none hk (docValue_large hv hn hlarge) r
    have hr : Room nodes.length := by
      unfold Room
      omega
    rw [docItems_step hk (docValue_flat hv nodes hfit) hr.ne_kNone]
    obtain ⟨r', cs', hs, hi, rfl⟩ | ⟨hs, rfl⟩ := hend
    · have hlen := length_attach hp hr key t
      have hsize' : 2 ^ 32 - 1 < nodes.length + (size t + sizes cs') := hsize
      simp only [hs, if_true]
      exact docItems_large hi (hp.attach hr key) (by rw [hlen]; omega) (by rw [hlen]; omega) r
    · have hsize' : 2 ^ 32 - 1 < nodes.length + (size t + 0) := hsize
      omega

end

/-- The vector of a document is the flat form of its tree. -/
theorem parseDoc_flat {text : Bytes} {t : Node F} (h : parse text = .ok t) (hsize : size t < 2 ^ 32) :
    parseDoc text = .ok (flat 0 [] kNone t) := by
  unfold parse at h
  dsimp only at h
  split at h
  · cases h
  rename_i root rest hv
  split at h
  · rename_i hend
    cases h
    rw [parseDoc, docValue_flat hv [] (by rw [List.length_nil]; omega)]
    dsimp only
    rw [List.length_nil, if_neg (by decide), if_pos hend, List.nil_append]
  · cases h

/-- A tree with more nodes than indices is no document. -/
theorem parseDoc_large {text : Bytes} {t : Node F} (h : parse text = .ok t) (hsize : 2 ^ 32 ≤ size t)
    (nodes : List (DocNode F)) : parseDoc text ≠ .ok nodes := by
  intro hdoc
  unfold parse at h
  dsimp only at h
  split at h
  · cases h
  rename_i root rest hv
  split at h
  · cases h
    unfold parseDoc at hdoc
    dsimp only at hdoc
    split at hdoc
    · cases hdoc
    · rename_i i r ns hi
      rw [if_pos (docValue_large hv (by simp) (by rw [List.length_nil]; omega) _ _ _ hi)] at hdoc
      cases hdoc
  · cases h

end Stok.Json
