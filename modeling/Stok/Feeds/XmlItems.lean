import Stok.Feeds.Xml
import Stok.Lib.FirstMatch

/-!
# Items and their children

A feed is a sequence of items, an item a sequence of children with a text or a CDATA section. The
searches of `xml.hpp` find the items whatever their CDATA sections hold, since the search for a
closing tag skips them. The search for an opening tag does not: a child is found unless a CDATA
section before it holds what looks like its opening tag.
-/

namespace Stok.Xml

open Stok.Lib.FirstMatch

/-! ## Searches as first matches -/

/-- The text begins with `<name`, the whole name. -/
def openAt (name s : Bytes) : Bool :=
  name.isPrefixOf (s.drop 1) &&
    (byteAt s 0 == ch '<' && 1 + name.length < s.length && nameEnd (byteAt s (1 + name.length)))

/-- The text begins with `</name`, the whole name. -/
def closeAt (name s : Bytes) : Bool :=
  name.isPrefixOf (s.drop 2) &&
    (byteAt s 0 == ch '<' && byteAt s 1 == ch '/' && 2 + name.length < s.length &&
      (byteAt s (2 + name.length) == ch '>' || isSpace (byteAt s (2 + name.length))))

theorem find_eq_first {pat : Bytes} (hpat : pat ≠ []) (s : Bytes) (start : Nat) :
    find pat s start = (first pat.isPrefixOf (s.drop start)).map (start + ·) := by
  refine find?_range' s ?_ start
  cases pat with
  | nil => exact absurd rfl hpat
  | cons c pat => rfl

/-- A search for a name that begins `k` bytes after the match. -/
theorem findName_eq_first {p : Bytes → Bool} {k : Nat} {name doc : Bytes} {ok : Nat → Bool}
    (hlen : ∀ s : Bytes, s.length ≤ k → p s = false)
    (hp : ∀ j, (name.isPrefixOf (doc.drop (k + j)) && ok (k + j)) = p (doc.drop j)) (start : Nat) :
    (findName doc name (start + k) ok).map (· - k) = (first p (doc.drop start)).map (start + ·) := by
  have hrange : (List.range' start (doc.length + 1 - start)).find? (fun j => p (doc.drop j)) =
      (List.range' start (doc.length + 1 - (start + k))).find? fun j => p (doc.drop j) := by
    have hsplit : doc.length + 1 - start = (doc.length + 1 - (start + k)) + min k (doc.length + 1 - start) := by
      omega
    rw [hsplit, ← List.range'_append_1, List.find?_append]
    have hnone : (List.range' (start + (doc.length + 1 - (start + k))) (min k (doc.length + 1 - start))).find?
        (fun j => p (doc.drop j)) = none := by
      rw [List.find?_range'_eq_none]
      intro j hj hj'
      rw [hlen _ (by rw [List.length_drop]; omega)]
      rfl
    rw [hnone, Option.or_none]
  rw [← find?_range' doc (hlen [] (Nat.zero_le k)) start, hrange, findName, Nat.add_comm start k,
    ← List.map_add_range', List.find?_map, Option.map_map]
  have hcongr : ((fun p => name.isPrefixOf (doc.drop p) && ok p) ∘ fun x => k + x) = fun j => p (doc.drop j) :=
    funext hp
  rw [hcongr]
  cases (List.range' start (doc.length + 1 - (k + start))).find? fun j => p (doc.drop j) with
  | none => rfl
  | some j => simp

theorem findOpen_eq_first (doc name : Bytes) (start : Nat) :
    findOpen doc name start = (first (openAt name) (doc.drop start)).map (start + ·) := by
  refine findName_eq_first (p := openAt name) (k := 1) (fun s hs => ?_) (fun j => ?_) start
  · have : ¬ 1 + name.length < s.length := by omega
    simp [openAt, this]
  · rw [Nat.add_comm 1 j]
    have hj : j + 1 - 1 = j + 0 := by omega
    have hlen : decide (j + (1 + name.length) < doc.length) = decide (1 + name.length < (doc.drop j).length) := by
      rw [List.length_drop, decide_eq_decide]
      omega
    have hafter : j + 1 + name.length = j + (1 + name.length) := by omega
    simp only [openAt, List.drop_drop, byteAt_drop, hj, hafter, hlen]

theorem findClose_eq_first (doc name : Bytes) (start : Nat) :
    findClose doc name start = (first (closeAt name) (doc.drop start)).map (start + ·) := by
  refine findName_eq_first (p := closeAt name) (k := 2) (fun s hs => ?_) (fun j => ?_) start
  · have : ¬ 2 + name.length < s.length := by omega
    simp [closeAt, this]
  · rw [Nat.add_comm 2 j]
    have hj : j + 2 - 2 = j + 0 := by omega
    have hj' : j + 2 - 1 = j + 1 := by omega
    have hlen : decide (j + (2 + name.length) < doc.length) = decide (2 + name.length < (doc.drop j).length) := by
      rw [List.length_drop, decide_eq_decide]
      omega
    have hafter : j + 2 + name.length = j + (2 + name.length) := by omega
    simp only [closeAt, List.drop_drop, byteAt_drop, hj, hj', hlen, hafter]

theorem openAt_iff {name s : Bytes} :
    openAt name s = true ↔ ∃ d r, s = ch '<' :: (name ++ d :: r) ∧ nameEnd d = true := by
  constructor
  · intro h
    simp only [openAt, Bool.and_eq_true, decide_eq_true_eq, beq_iff_eq] at h
    obtain ⟨hpre, ⟨hlt, hlen⟩, hend⟩ := h
    obtain ⟨r, hr⟩ := List.isPrefixOf_iff_prefix.mp hpre
    cases s with
    | nil => simp at hlen
    | cons c s =>
      rw [List.drop_one, List.tail_cons] at hr
      subst hr
      cases r with
      | nil => simp at hlen
      | cons d r =>
        refine ⟨d, r, by rw [show c = ch '<' from hlt], ?_⟩
        have hd : byteAt (c :: (name ++ d :: r)) (1 + name.length) = d := by simp [byteAt, Nat.add_comm 1]
        rwa [hd] at hend
  · rintro ⟨d, r, rfl, hd⟩
    have hbyte : byteAt (ch '<' :: (name ++ d :: r)) (1 + name.length) = d := by simp [byteAt, Nat.add_comm 1]
    have hpre : name.isPrefixOf (name ++ d :: r) = true := List.isPrefixOf_iff_prefix.mpr (List.prefix_append _ _)
    have hlen : 1 + name.length < (ch '<' :: (name ++ d :: r)).length := by simp; omega
    simp only [openAt, hbyte, hd, hlen, List.drop_one, List.tail_cons, hpre, decide_true, Bool.and_true, Bool.true_and]
    rfl

theorem closeAt_iff {name s : Bytes} :
    closeAt name s = true ↔
      ∃ d r, s = ch '<' :: ch '/' :: (name ++ d :: r) ∧ (d = ch '>' ∨ isSpace d = true) := by
  constructor
  · intro h
    simp only [closeAt, Bool.and_eq_true, Bool.or_eq_true, decide_eq_true_eq, beq_iff_eq] at h
    obtain ⟨hpre, ⟨⟨hlt, hsl⟩, hlen⟩, hend⟩ := h
    obtain ⟨r, hr⟩ := List.isPrefixOf_iff_prefix.mp hpre
    match s with
    | [] => simp at hlen
    | [c] => simp at hlen
    | c :: c' :: s =>
      rw [show (c :: c' :: s).drop 2 = s from rfl] at hr
      subst hr
      cases r with
      | nil => simp at hlen; omega
      | cons d r =>
        refine ⟨d, r, by rw [show c = ch '<' from hlt, show c' = ch '/' from hsl], ?_⟩
        have hd : byteAt (c :: c' :: (name ++ d :: r)) (2 + name.length) = d := by simp [byteAt, Nat.add_comm 2]
        rwa [hd] at hend
  · rintro ⟨d, r, rfl, hd⟩
    have hbyte : byteAt (ch '<' :: ch '/' :: (name ++ d :: r)) (2 + name.length) = d := by
      simp [byteAt, Nat.add_comm 2]
    have hpre : name.isPrefixOf (name ++ d :: r) = true := List.isPrefixOf_iff_prefix.mpr (List.prefix_append _ _)
    have hlen : 2 + name.length < (ch '<' :: ch '/' :: (name ++ d :: r)).length := by simp; omega
    simp only [closeAt, Bool.and_eq_true, Bool.or_eq_true, decide_eq_true_eq, beq_iff_eq, hbyte]
    exact ⟨hpre, ⟨⟨rfl, rfl⟩, hlen⟩, hd⟩

/-! ## Tags -/

/-- A byte of an XML name. -/
def nameByte (c : UInt8) : Bool :=
  isAlnum c || c == ch ':' || c == ch '_' || c == ch '-' || c == ch '.' || decide (128 ≤ c)

theorem nameByte_spec {c : UInt8} (h : nameByte c = true) :
    nameEnd c = false ∧ c ≠ ch '<' ∧ c ≠ ch '>' ∧ c ≠ ch '/' ∧ c ≠ ch '!' ∧ c ≠ ch ']' := by
  refine byte_forall (p := fun c => nameByte c = true → nameEnd c = false ∧ c ≠ ch '<' ∧ c ≠ ch '>' ∧
    c ≠ ch '/' ∧ c ≠ ch '!' ∧ c ≠ ch ']') ?_ c h
  decide +kernel

/-- An XML name. -/
structure TagName (name : Bytes) : Prop where
  ne_nil : name ≠ []
  bytes : ∀ c ∈ name, nameByte c = true

/-- What ends one name does not go on with another. -/
theorem TagName.eq_of_end {name name' : Bytes} {d d' : UInt8} {r r' : Bytes} (h : TagName name)
    (h' : TagName name') (hd : nameByte d = false) (hd' : nameByte d' = false)
    (heq : name ++ d :: r = name' ++ d' :: r') : name = name' := by
  have htake : ∀ {n : Bytes} {d : UInt8} {r : Bytes}, (∀ c ∈ n, nameByte c = true) → nameByte d = false →
      (n ++ d :: r).takeWhile nameByte = n := by
    intro n d r hn hd
    rw [List.takeWhile_append_of_pos hn, List.takeWhile_cons_of_neg (by rw [hd]; exact Bool.false_ne_true),
      List.append_nil]
  rw [← htake h.bytes hd (r := r), heq, htake h'.bytes hd']

theorem nameByte_end {d : UInt8} (h : nameEnd d = true) : nameByte d = false := by
  by_contra hn
  rw [Bool.not_eq_false] at hn
  rw [(nameByte_spec hn).1] at h
  cases h

theorem nameEnd_close {d : UInt8} (h : d = ch '>' ∨ isSpace d = true) : nameEnd d = true := by
  rcases h with rfl | h
  · rfl
  · simp [nameEnd, h]

/-- The opening or empty tag of an element, up to its `>`. -/
structure AttrText (attrs : Bytes) : Prop where
  head : ∀ c, attrs.head? = some c → isSpace c = true
  bytes : ∀ c ∈ attrs, c ≠ ch '<' ∧ c ≠ ch '>'

def SpaceText (space : Bytes) : Prop := ∀ c ∈ space, isSpace c = true

def NoTag (text : Bytes) : Prop := ∀ c ∈ text, c ≠ ch '<'

instance (text : Bytes) : Decidable (NoTag text) := List.decidableBAll _ text

theorem NoTag.append {a b : Bytes} (ha : NoTag a) (hb : NoTag b) : NoTag (a ++ b) := by
  intro c hc
  rcases List.mem_append.mp hc with hc | hc
  exacts [ha c hc, hb c hc]

theorem TagName.noTag {name : Bytes} (h : TagName name) : NoTag name := fun c hc => (nameByte_spec (h.bytes c hc)).2.1

theorem AttrText.noTag {attrs : Bytes} (h : AttrText attrs) : NoTag attrs := fun c hc => (h.bytes c hc).1

theorem SpaceText.noTag {space : Bytes} (h : SpaceText space) : NoTag space := by
  intro c hc heq
  have := h c hc
  rw [heq] at this
  exact absurd this (by decide)

/-- The byte that follows a name in a tag. -/
theorem head_append_of {a : Bytes} {q : UInt8 → Prop} {c : UInt8} (ha : ∀ d, a.head? = some d → q d) (hc : q c)
    (r : Bytes) : ∃ d r', a ++ c :: r = d :: r' ∧ q d := by
  cases a with
  | nil => exact ⟨c, r, rfl, hc⟩
  | cons d a => exact ⟨d, a ++ c :: r, rfl, ha d rfl⟩

/-! ## Content -/

def cdataOpen : Bytes := lit "<![CDATA["

def cdataClose : Bytes := lit "]]>"

/-- A CDATA section. -/
def cdata (t : Bytes) : Bytes := cdataOpen ++ (t ++ cdataClose)

/-- A text in which neither a closing tag of the name nor a CDATA section begins. -/
def Plain (name a : Bytes) : Prop := ∀ b, Free (closeAt name) a b ∧ Free cdataOpen.isPrefixOf a b

theorem closeAt_head {name : Bytes} (c : UInt8) (s : Bytes) (h : (c == ch '<') = false) :
    closeAt name (c :: s) = false := by
  by_contra hclose
  obtain ⟨d, r, heq, -⟩ := closeAt_iff.mp (Bool.not_eq_false _ ▸ hclose)
  exact ne_of_beq_false h (List.cons.inj heq).1

theorem openAt_head {name : Bytes} (c : UInt8) (s : Bytes) (h : (c == ch '<') = false) :
    openAt name (c :: s) = false := by
  by_contra hopen
  obtain ⟨d, r, heq, -⟩ := openAt_iff.mp (Bool.not_eq_false _ ▸ hopen)
  exact ne_of_beq_false h (List.cons.inj heq).1

/-- What a CDATA section begins with. -/
theorem cdataOpen_prefix {s : Bytes} (h : cdataOpen.isPrefixOf s = true) : ∃ r, s = ch '<' :: ch '!' :: r := by
  obtain ⟨r, hr⟩ := List.isPrefixOf_iff_prefix.mp h
  have hopen : cdataOpen = ch '<' :: ch '!' :: lit "[CDATA[" := by decide
  rw [hopen] at hr
  exact ⟨_, hr.symm⟩

theorem cdataOpen_head (c : UInt8) (s : Bytes) (h : (c == ch '<') = false) :
    cdataOpen.isPrefixOf (c :: s) = false := by
  by_contra hopen
  obtain ⟨r, hr⟩ := cdataOpen_prefix (Bool.not_eq_false _ ▸ hopen)
  exact ne_of_beq_false h (List.cons.inj hr).1

theorem NoTag.beq {a : Bytes} (h : NoTag a) : ∀ c ∈ a, (c == ch '<') = false := fun c hc => beq_false_of_ne (h c hc)

theorem NoTag.plain {a : Bytes} (name : Bytes) (h : NoTag a) : Plain name a := fun b =>
  ⟨free_of_head closeAt_head h.beq b, free_of_head cdataOpen_head h.beq b⟩

theorem Plain.append {name a b : Bytes} (ha : Plain name a) (hb : Plain name b) : Plain name (a ++ b) := fun s =>
  ⟨free_append.mpr ⟨(ha _).1, (hb s).1⟩, free_append.mpr ⟨(ha _).2, (hb s).2⟩⟩

/-- An opening tag. -/
theorem plain_open {name child a : Bytes} (hchild : TagName child) (ha : NoTag a) :
    Plain name (ch '<' :: (child ++ a)) := by
  obtain ⟨c, rest, rfl⟩ := List.exists_cons_of_ne_nil hchild.ne_nil
  obtain ⟨-, -, -, hslash, hbang, -⟩ := nameByte_spec (hchild.bytes c List.mem_cons_self)
  intro b
  obtain ⟨h1, h2⟩ := (hchild.noTag.append ha).plain name b
  refine ⟨free_cons.mpr ⟨?_, h1⟩, free_cons.mpr ⟨?_, h2⟩⟩
  · by_contra hclose
    obtain ⟨d, r, heq, -⟩ := closeAt_iff.mp (Bool.not_eq_false _ ▸ hclose)
    exact hslash (List.cons.inj (List.cons.inj heq).2).1
  · by_contra hcdata
    obtain ⟨r, hr⟩ := cdataOpen_prefix (Bool.not_eq_false _ ▸ hcdata)
    exact hbang (List.cons.inj (List.cons.inj hr).2).1

/-- A closing tag of another name. -/
theorem plain_close {name child space : Bytes} (hname : TagName name) (hchild : TagName child) (hne : child ≠ name)
    (hspace : SpaceText space) : Plain name (ch '<' :: ch '/' :: (child ++ (space ++ [ch '>']))) := by
  have htail : NoTag (child ++ (space ++ [ch '>'])) :=
    hchild.noTag.append (hspace.noTag.append fun c hc => by rw [List.mem_singleton.mp hc]; decide)
  intro b
  obtain ⟨h1, h2⟩ := htail.plain name b
  refine ⟨free_cons.mpr ⟨?_, free_cons.mpr ⟨closeAt_head _ _ rfl, h1⟩⟩,
    free_cons.mpr ⟨?_, free_cons.mpr ⟨cdataOpen_head _ _ rfl, h2⟩⟩⟩
  swap
  · by_contra hcdata
    obtain ⟨r, hr⟩ := cdataOpen_prefix (Bool.not_eq_false _ ▸ hcdata)
    exact absurd (List.cons.inj (List.cons.inj hr).2).1 (by decide)
  by_contra hclose
  rw [Bool.not_eq_false, closeAt_iff] at hclose
  obtain ⟨d, r, heq, hd⟩ := hclose
  have hrest : child ++ (space ++ [ch '>']) ++ b = name ++ d :: r := by
    injection heq with _ heq
    injection heq
  obtain ⟨d', r', hd', hend⟩ := head_append_of (a := space) (q := fun d => d = ch '>' ∨ isSpace d = true)
    (fun d hd => .inr (hspace d (List.mem_of_head? hd))) (.inl rfl) b
  rw [List.append_assoc, List.append_assoc, List.singleton_append, hd'] at hrest
  exact hne (hchild.eq_of_end hname (nameByte_end (nameEnd_close hend)) (nameByte_end (nameEnd_close hd)) hrest)

/-- The content of an element: plain text and CDATA sections. -/
inductive Body (name : Bytes) : Bytes → Prop
  | last {a : Bytes} (h : Plain name a) : Body name a
  | section_ {a t s : Bytes} (h : Plain name a) (ht : ¬ cdataClose <:+: t) (hs : Body name s) :
    Body name (a ++ (cdata t ++ s))

theorem Body.prepend {name a s : Bytes} (ha : Plain name a) (hs : Body name s) : Body name (a ++ s) := by
  cases hs with
  | last h => exact .last (ha.append h)
  | section_ h ht hs =>
    rw [← List.append_assoc]
    exact .section_ (ha.append h) ht hs

theorem free_cdataClose {t : Bytes} (ht : ¬ cdataClose <:+: t) (b : Bytes) :
    Free cdataClose.isPrefixOf t (cdataClose ++ b) := by
  intro i hi
  by_contra hp
  rw [Bool.not_eq_false, List.isPrefixOf_iff_prefix] at hp
  have hgt : byteAt (t.drop i ++ (cdataClose ++ b)) 2 = ch '>' := by
    obtain ⟨r, hr⟩ := hp
    rw [← hr]
    rfl
  have hlen : 0 < (t.drop i).length := by
    rw [List.length_drop]
    omega
  match hd : t.drop i with
  | [] => simp [hd] at hlen
  | [x] =>
    rw [hd] at hgt
    have hsq : byteAt ([x] ++ (cdataClose ++ b)) 2 = ch ']' := rfl
    exact absurd (hsq.symm.trans hgt) (by decide)
  | [x, y] =>
    rw [hd] at hgt
    have hsq : byteAt ([x, y] ++ (cdataClose ++ b)) 2 = ch ']' := rfl
    exact absurd (hsq.symm.trans hgt) (by decide)
  | x :: y :: z :: rest =>
    -- the three bytes lie in the text
    rw [hd] at hp
    refine ht ((List.IsPrefix.isInfix ?_).trans (List.drop_suffix i t).isInfix)
    rw [hd]
    exact List.prefix_of_prefix_length_le hp (List.prefix_append _ _) (by simp [cdataClose, lit])

/-! ## The closing tag -/

theorem drop_of_drop {doc a b : Bytes} {i : Nat} (h : doc.drop i = a ++ b) : doc.drop (i + a.length) = b := by
  rw [← List.drop_drop, h, List.drop_left]

/-- A match that is there is found at the latest where it is. -/
theorem first_isSome {p : Bytes → Bool} {a b : Bytes} (hb : p b = true) : ∃ n ≤ a.length, first p (a ++ b) = some n := by
  induction a with
  | nil => exact ⟨0, Nat.le_refl 0, first_pos hb⟩
  | cons c a ih =>
    obtain ⟨n, hn, hfirst⟩ := ih
    rw [List.cons_append, first]
    split
    · exact ⟨0, Nat.zero_le _, rfl⟩
    · exact ⟨n + 1, Nat.succ_le_succ hn, by rw [hfirst]; rfl⟩

theorem free_cdataOpen (name b : Bytes) : Free (closeAt name) cdataOpen b := by
  have hopen : cdataOpen = ch '<' :: ch '!' :: lit "[CDATA[" := by decide
  rw [hopen]
  refine free_cons.mpr ⟨?_, free_cons.mpr ⟨closeAt_head _ _ rfl, free_of_head closeAt_head (NoTag.beq (by decide)) b⟩⟩
  by_contra hclose
  obtain ⟨d, r, heq, -⟩ := closeAt_iff.mp (Bool.not_eq_false _ ▸ hclose)
  exact absurd (List.cons.inj (List.cons.inj heq).2).1 (by decide)

theorem closeFrom_plain {doc name : Bytes} {fuel pos close : Nat} (h : findClose doc name pos = some close)
    (hnone : find cdataOpen (doc.take close) pos = none) : closeFrom doc name (fuel + 1) pos = some close := by
  have hnone' : find (lit "<![CDATA[") (doc.take close) pos = none := hnone
  rw [closeFrom, h]
  dsimp only
  rw [hnone']

theorem closeFrom_section {doc name : Bytes} {fuel pos close c ce : Nat} (h : findClose doc name pos = some close)
    (hopen : find cdataOpen (doc.take close) pos = some c) (hend : find cdataClose doc (c + 9) = some ce) :
    closeFrom doc name (fuel + 1) pos = closeFrom doc name fuel (ce + 3) := by
  have hopen' : find (lit "<![CDATA[") (doc.take close) pos = some c := hopen
  have hend' : find (lit "]]>") doc (c + 9) = some ce := hend
  rw [closeFrom, h]
  dsimp only
  rw [hopen']
  dsimp only
  rw [hend']

/-- The closing tag is found behind the content, whatever its CDATA sections hold. -/
theorem closeFrom_body {doc name body closing : Bytes} {pos fuel : Nat} (hbody : Body name body)
    (hclose : closeAt name closing = true) (hdoc : doc.drop pos = body ++ closing) (hfuel : body.length < fuel) :
    closeFrom doc name fuel pos = some (pos + body.length) := by
  induction hbody generalizing pos fuel with
  | @last a ha =>
    obtain ⟨fuel, rfl⟩ : ∃ n, fuel = n + 1 := ⟨fuel - 1, by omega⟩
    have hfind : findClose doc name pos = some (pos + a.length) := by
      rw [findClose_eq_first, hdoc, first_of_free (ha closing).1 hclose, Option.map_some]
    have hnone : find cdataOpen (doc.take (pos + a.length)) pos = none := by
      rw [find_eq_first (by decide), List.drop_take, hdoc, Nat.add_sub_cancel_left, List.take_left,
        first_none (ha []).2 rfl, Option.map_none]
    exact closeFrom_plain hfind hnone
  | @section_ a t s ha ht hs ih =>
    obtain ⟨fuel, rfl⟩ : ∃ n, fuel = n + 1 := ⟨fuel - 1, by omega⟩
    have hlen9 : cdataOpen.length = 9 := by decide
    have hlen3 : cdataClose.length = 3 := by decide
    have hsplit : doc.drop pos = (a ++ cdataOpen) ++ ((t ++ (cdataClose ++ s)) ++ closing) := by
      rw [hdoc, cdata]
      simp only [List.append_assoc]
    have hfree : Free (closeAt name) (a ++ cdataOpen) ((t ++ (cdataClose ++ s)) ++ closing) :=
      free_append.mpr ⟨(ha _).1, free_cdataOpen name _⟩
    obtain ⟨n, -, hn⟩ := first_isSome (a := t ++ (cdataClose ++ s)) hclose
    have hfind : findClose doc name pos = some (pos + ((a ++ cdataOpen).length + n)) := by
      rw [findClose_eq_first, hsplit, first_append hfree, hn, Option.map_some, Option.map_some]
    -- the section begins before what was found
    have hcdata : find cdataOpen (doc.take (pos + ((a ++ cdataOpen).length + n))) pos = some (pos + a.length) := by
      have htake : (doc.take (pos + ((a ++ cdataOpen).length + n))).drop pos =
          a ++ (cdataOpen ++ ((t ++ (cdataClose ++ s)) ++ closing).take n) := by
        rw [List.drop_take, Nat.add_sub_cancel_left, hsplit, List.take_length_add_append, List.append_assoc]
      rw [find_eq_first (by decide), htake,
        first_of_free (ha _).2 (List.isPrefixOf_iff_prefix.mpr (List.prefix_append _ _)), Option.map_some]
    have hafter : doc.drop (pos + a.length + 9) = t ++ (cdataClose ++ (s ++ closing)) := by
      have := drop_of_drop hsplit
      rw [List.length_append, hlen9, ← Nat.add_assoc] at this
      rw [this]
      simp only [List.append_assoc]
    have hend : find cdataClose doc (pos + a.length + 9) = some (pos + a.length + 9 + t.length) := by
      rw [find_eq_first (by decide), hafter,
        first_of_free (free_cdataClose ht _) (List.isPrefixOf_iff_prefix.mpr (List.prefix_append _ _)),
        Option.map_some]
    have hrest : doc.drop (pos + a.length + 9 + t.length + 3) = s ++ closing := by
      have := drop_of_drop (drop_of_drop hafter)
      rwa [hlen3] at this
    have hlen : (a ++ (cdata t ++ s)).length = a.length + 9 + t.length + 3 + s.length := by
      simp only [cdata, List.length_append, hlen9, hlen3]
      omega
    rw [closeFrom_section hfind hcdata hend, ih hrest (by omega), hlen]
    congr 1
    omega

/-! ## Elements -/

/-- An element of a document. Its content is `none` for an empty tag; `space` stands before the `>` of
its closing tag. -/
structure Elem where
  name : Bytes
  attrs : Bytes
  content : Option Bytes
  space : Bytes
  name_ok : TagName name
  attrs_ok : AttrText attrs
  attrs_last : content.isSome → attrs.getLast? ≠ some (ch '/')
  space_ok : SpaceText space

namespace Elem

def closing (e : Elem) : Bytes := ch '<' :: ch '/' :: (e.name ++ (e.space ++ [ch '>']))

def render (e : Elem) : Bytes :=
  match e.content with
  | none => ch '<' :: (e.name ++ (e.attrs ++ [ch '/'])) ++ [ch '>']
  | some b => ch '<' :: (e.name ++ e.attrs) ++ (ch '>' :: (b ++ e.closing))

end Elem

theorem find_gt {doc a r : Bytes} {i : Nat} (h : doc.drop i = a ++ ch '>' :: r) (ha : ∀ c ∈ a, c ≠ ch '>') :
    find [ch '>'] doc i = some (i + a.length) := by
  have hfree : Free [ch '>'].isPrefixOf a (ch '>' :: r) := by
    refine free_of_head (q := fun c => c == ch '>') (fun c s hc => ?_) (fun c hc => beq_false_of_ne (ha c hc)) _
    show (ch '>' == c && _) = false
    rw [BEq.comm, hc, Bool.false_and]
  rw [find_eq_first (by decide), h, first_of_free hfree rfl, Option.map_some]

theorem byteAt_last {doc a r : Bytes} {i : Nat} {x : UInt8} (h : doc.drop i = a ++ r) (hx : a.getLast? = some x) :
    byteAt doc (i + a.length - 1) = x := by
  obtain ⟨b, rfl⟩ := List.getLast?_eq_some_iff.mp hx
  have hlen : i + (b ++ [x]).length - 1 = i + b.length := by simp
  rw [hlen, ← byteAt_drop, h]
  simp [byteAt]

theorem nameEnd_space {c : UInt8} (h : isSpace c = true) : nameEnd c = true := by simp [nameEnd, h]

theorem openAt_render (e : Elem) (rest : Bytes) : openAt e.name (e.render ++ rest) = true := by
  rw [openAt_iff]
  have hspace : ∀ d, e.attrs.head? = some d → nameEnd d = true := fun d hd => nameEnd_space (e.attrs_ok.head d hd)
  unfold Elem.render
  cases e.content with
  | none =>
    obtain ⟨d, r, heq, hd⟩ := head_append_of hspace (c := ch '/') rfl (ch '>' :: rest)
    refine ⟨d, r, ?_, hd⟩
    rw [← heq]
    simp
  | some b =>
    obtain ⟨d, r, heq, hd⟩ := head_append_of hspace (c := ch '>') rfl (b ++ e.closing ++ rest)
    refine ⟨d, r, ?_, hd⟩
    rw [← heq]
    simp

theorem closeAt_closing (e : Elem) (rest : Bytes) : closeAt e.name (e.closing ++ rest) = true := by
  rw [closeAt_iff]
  obtain ⟨d, r, heq, hd⟩ := head_append_of (q := fun d => d = ch '>' ∨ isSpace d = true)
    (fun d hd => .inr (e.space_ok d (List.mem_of_head? hd))) (.inl rfl) rest
  refine ⟨d, r, ?_, hd⟩
  rw [← heq, Elem.closing]
  simp

/-- The next element is the one whose tag comes first. -/
theorem nextElement_render (e : Elem) {doc gap rest : Bytes} {start : Nat}
    (hdoc : doc.drop start = gap ++ (e.render ++ rest)) (hgap : Free (openAt e.name) gap (e.render ++ rest))
    (hbody : ∀ b, e.content = some b → Body e.name b) :
    nextElement doc e.name start =
      some { attrs := e.attrs, inner := e.content.getD [], stop := start + gap.length + e.render.length } := by
  have hopen : findOpen doc e.name start = some (start + gap.length) := by
    rw [findOpen_eq_first, hdoc, first_of_free hgap (openAt_render e rest), Option.map_some]
  have hlt : doc.drop (start + gap.length) = e.render ++ rest := drop_of_drop hdoc
  have hnogt : ∀ c ∈ ch '<' :: (e.name ++ e.attrs), c ≠ ch '>' := by
    intro c hc
    rcases List.mem_cons.mp hc with rfl | hc
    · decide
    · rcases List.mem_append.mp hc with hc | hc
      exacts [(nameByte_spec (e.name_ok.bytes c hc)).2.2.1, (e.attrs_ok.bytes c hc).2]
  generalize start + gap.length = lt at hopen hlt ⊢
  have hname : e.name ≠ [] := e.name_ok.ne_nil
  unfold nextElement
  rw [hopen]
  cases hcontent : e.content with
  | none =>
    have hrender : e.render = (ch '<' :: (e.name ++ e.attrs)) ++ [ch '/'] ++ [ch '>'] := by
      rw [Elem.render, hcontent]
      simp
    have hsplit : doc.drop lt = ((ch '<' :: (e.name ++ e.attrs)) ++ [ch '/']) ++ ch '>' :: rest := by
      rw [hlt, hrender]
      simp
    have hgt := find_gt hsplit fun c hc => by
      rcases List.mem_append.mp hc with hc | hc
      · exact hnogt c hc
      · rw [List.mem_singleton.mp hc]
        decide
    have hslash := byteAt_last hsplit (List.getLast?_concat ..)
    have hattrs : doc.drop (lt + 1 + e.name.length) = (e.attrs ++ [ch '/']) ++ ch '>' :: rest := by
      have hname : doc.drop lt = (ch '<' :: e.name) ++ ((e.attrs ++ [ch '/']) ++ ch '>' :: rest) := by
        rw [hsplit]
        simp
      have := drop_of_drop hname
      rwa [List.length_cons, Nat.add_comm e.name.length 1, ← Nat.add_assoc] at this
    have hlen : lt + ((ch '<' :: (e.name ++ e.attrs)) ++ [ch '/']).length - (lt + 1 + e.name.length) =
        (e.attrs ++ [ch '/']).length := by
      simp only [List.length_append, List.length_cons, List.length_nil]
      omega
    have hstop : lt + e.render.length = lt + ((ch '<' :: (e.name ++ e.attrs)) ++ [ch '/']).length + 1 := by
      rw [hrender, List.length_append, List.length_singleton]
      rfl
    simp only [Option.bind_eq_bind, Option.bind_some, hgt, hslash, if_true, hattrs, hlen, List.take_left,
      List.dropLast_concat, hstop, Option.getD_none]
  | some b =>
    have hsplit : doc.drop lt = (ch '<' :: (e.name ++ e.attrs)) ++ ch '>' :: (b ++ (e.closing ++ rest)) := by
      rw [hlt, Elem.render, hcontent]
      simp
    have hgt := find_gt hsplit hnogt
    have hlast : byteAt doc (lt + (ch '<' :: (e.name ++ e.attrs)).length - 1) ≠ ch '/' := by
      cases hl : (ch '<' :: (e.name ++ e.attrs)).getLast? with
      | none => simp at hl
      | some x =>
        rw [byteAt_last hsplit hl]
        rintro rfl
        rw [← List.cons_append] at hl
        rcases eq_or_ne e.attrs [] with hnil | hne
        · rw [hnil, List.append_nil, List.getLast?_cons_of_ne_nil hname] at hl
          exact (nameByte_spec (e.name_ok.bytes _ (List.mem_of_getLast? hl))).2.2.2.1 rfl
        · rw [List.getLast?_append_of_ne_nil _ hne] at hl
          exact e.attrs_last (by rw [hcontent]; rfl) hl
    have hattrs : doc.drop (lt + 1 + e.name.length) = e.attrs ++ ch '>' :: (b ++ (e.closing ++ rest)) := by
      have hname : doc.drop lt = (ch '<' :: e.name) ++ (e.attrs ++ ch '>' :: (b ++ (e.closing ++ rest))) := by
        rw [hsplit]
        simp
      have := drop_of_drop hname
      rwa [List.length_cons, Nat.add_comm e.name.length 1, ← Nat.add_assoc] at this
    have hlen : lt + (ch '<' :: (e.name ++ e.attrs)).length - (lt + 1 + e.name.length) = e.attrs.length := by
      simp only [List.length_append, List.length_cons]
      omega
    have hstop : lt + e.render.length =
        lt + (ch '<' :: (e.name ++ e.attrs)).length + 1 + b.length + e.closing.length := by
      rw [Elem.render, hcontent]
      simp only [List.length_append, List.length_cons]
      omega
    have hinner : doc.drop (lt + (ch '<' :: (e.name ++ e.attrs)).length + 1) = b ++ (e.closing ++ rest) := by
      rw [← List.drop_drop, drop_of_drop hsplit]
      rfl
    generalize lt + (ch '<' :: (e.name ++ e.attrs)).length = gt at hgt hlast hlen hstop hinner ⊢
    have hdoclen : b.length < doc.length := by
      have := congrArg List.length hinner
      simp only [List.length_drop, List.length_append, Elem.closing, List.length_cons] at this
      omega
    have hclose := closeFrom_body (hbody b hcontent) (closeAt_closing e rest) hinner hdoclen
    have htail : doc.drop (gt + 1 + b.length) =
        (ch '<' :: ch '/' :: (e.name ++ e.space)) ++ ch '>' :: rest := by
      rw [drop_of_drop hinner, Elem.closing]
      simp
    have hte := find_gt htail fun c hc => by
      rcases List.mem_cons.mp hc with rfl | hc
      · decide
      rcases List.mem_cons.mp hc with rfl | hc
      · decide
      rcases List.mem_append.mp hc with hc | hc
      · exact (nameByte_spec (e.name_ok.bytes c hc)).2.2.1
      · rintro rfl
        exact absurd (e.space_ok _ hc) (by decide)
    have hclen : e.closing.length = (ch '<' :: ch '/' :: (e.name ++ e.space)).length + 1 := by
      rw [Elem.closing]
      simp only [List.length_append, List.length_cons, List.length_nil]
      omega
    have htake : gt + 1 + b.length - gt - 1 = b.length := by omega
    simp only [Option.bind_eq_bind, Option.bind_some, hgt, if_neg hlast, hattrs, hlen, List.take_left, hclose, hte,
      hinner, htake, hstop, hclen, Option.getD_some]
    rfl

/-- Nothing is found where no tag opens. -/
theorem nextElement_none {doc name rest : Bytes} {start : Nat} (hdoc : doc.drop start = rest)
    (hfree : Free (openAt name) rest []) : nextElement doc name start = none := by
  have hnil : openAt name [] = false := by simp [openAt]
  have hopen : findOpen doc name start = none := by
    rw [findOpen_eq_first, hdoc, first_none hfree hnil, Option.map_none]
  unfold nextElement
  rw [hopen]
  rfl

/-! ## Items -/

/-- What a child holds. -/
inductive Content where
  | empty
  | text (t : Bytes) (h : NoTag t)
  | cdata (t : Bytes) (h : ¬ cdataClose <:+: t)

/-- The raw content. -/
def Content.raw : Content → Option Bytes
  | .empty => none
  | .text t _ => some t
  | .cdata t _ => some (Xml.cdata t)

/-- A child of an item, with the text that follows it. -/
structure Child extends Elem where
  holds : Content
  gap : Bytes
  content_eq : content = holds.raw
  gap_ok : NoTag gap

def Child.text (c : Child) : Bytes := c.render ++ c.gap

/-- An item of a feed: its content is that of its children, none of them an item. `before` is what
stands between it and the item before. -/
structure Item (tag : Bytes) extends Elem where
  before : Bytes
  lead : Bytes
  children : List Child
  name_eq : name = tag
  content_eq : content = some (lead ++ children.flatMap Child.text)
  lead_ok : NoTag lead
  child_ne : ∀ c ∈ children, c.name ≠ tag
  before_ok : ¬ (ch '<' :: tag) <:+: before

def Item.text {tag : Bytes} (i : Item tag) : Bytes := i.before ++ i.render

/-- The raw inner text of an item. -/
def Item.inner {tag : Bytes} (i : Item tag) : Bytes := i.lead ++ i.children.flatMap Child.text

theorem Elem.render_ne_nil (e : Elem) : e.render.head? = some (ch '<') := by
  unfold Elem.render
  cases e.content <;> rfl

/-- A text that has no opening tag of the name, with a tag after it. -/
theorem free_before {tag a b : Bytes} (htag : TagName tag) (ha : ¬ (ch '<' :: tag) <:+: a)
    (hb : b = [] ∨ b.head? = some (ch '<')) : Free (openAt tag) a b := by
  intro i hi
  by_contra hopen
  obtain ⟨d, r, heq, -⟩ := openAt_iff.mp (Bool.not_eq_false _ ▸ hopen)
  have hpre : (ch '<' :: tag) <+: a.drop i ++ b := ⟨d :: r, by rw [heq]; simp⟩
  rcases Nat.lt_or_ge (a.drop i).length (ch '<' :: tag).length with hlt | hge
  · -- the match would reach into the next tag, but a name has no `<`
    obtain ⟨s, hs⟩ := List.prefix_of_prefix_length_le (List.prefix_append (a.drop i) b) hpre hlt.le
    have hne : a.drop i ≠ [] := fun hnil => by
      have := congrArg List.length hnil
      rw [List.length_drop, List.length_nil] at this
      omega
    obtain ⟨x, rest, hx⟩ := List.exists_cons_of_ne_nil hne
    have hsne : s ≠ [] := fun hnil => by
      rw [hnil, List.append_nil] at hs
      rw [hs] at hlt
      omega
    obtain ⟨y, s', rfl⟩ := List.exists_cons_of_ne_nil hsne
    have hmem : y ∈ tag := by
      rw [hx, List.cons_append] at hs
      rw [← (List.cons.inj hs).2]
      simp
    have hy : y = ch '<' := by
      obtain ⟨w, hw⟩ := hpre
      rw [← hs, List.append_assoc] at hw
      have hbw := List.append_cancel_left hw
      rcases hb with rfl | hb
      · cases hbw
      · rw [← hbw] at hb
        exact Option.some.inj hb
    exact htag.noTag y hmem hy
  · have hin := List.prefix_of_prefix_length_le hpre (List.prefix_append (a.drop i) b) hge
    exact ha (hin.isInfix.trans (List.drop_suffix i a).isInfix)

/-- A child is part of the content of its item. -/
theorem Child.body {tag s : Bytes} (c : Child) (htag : TagName tag) (hne : c.name ≠ tag) (hs : Body tag s) :
    Body tag (c.text ++ s) := by
  have hclose : Plain tag c.closing := plain_close htag c.name_ok hne c.space_ok
  have hopen : ∀ {a : Bytes}, NoTag a → Plain tag (ch '<' :: (c.name ++ (c.attrs ++ a))) := fun ha =>
    plain_open c.name_ok (c.attrs_ok.noTag.append ha)
  have hgt : NoTag [ch '>'] := by
    decide
  have hempty : NoTag [ch '/', ch '>'] := by
    decide
  have hrest : Body tag (c.gap ++ s) := Body.prepend (c.gap_ok.plain tag) hs
  have heq := c.content_eq
  unfold Child.text Elem.render
  cases hc : c.holds with
  | empty =>
    rw [hc] at heq
    rw [heq]
    have := Body.prepend (hopen hempty) hrest
    simpa [Content.raw] using this
  | text t ht =>
    rw [hc] at heq
    rw [heq]
    have := Body.prepend (hopen (hgt.append ht)) (Body.prepend hclose hrest)
    simpa [Content.raw] using this
  | cdata t ht =>
    rw [hc] at heq
    rw [heq]
    have := Body.section_ (hopen hgt) ht (Body.prepend hclose hrest)
    simpa [Content.raw] using this

theorem Item.body {tag : Bytes} (i : Item tag) : Body tag i.inner := by
  have htag : TagName tag := i.name_eq ▸ i.name_ok
  refine Body.prepend (i.lead_ok.plain tag) ?_
  have hchildren : ∀ cs : List Child, (∀ c ∈ cs, c.name ≠ tag) → Body tag (cs.flatMap Child.text) := by
    intro cs
    induction cs with
    | nil => exact fun _ => .last fun b => ⟨free_nil b, free_nil b⟩
    | cons c cs ih =>
      intro h
      rw [List.flatMap_cons]
      exact c.body htag (h c List.mem_cons_self) (ih fun d hd => h d (List.mem_cons_of_mem c hd))
  exact hchildren i.children i.child_ne

/-- The items of a feed are found in order, with their attributes and their raw inner text. -/
theorem elementsFrom_items {tag doc after : Bytes} {pos fuel : Nat} (items : List (Item tag)) (htag : TagName tag)
    (hafter : ¬ (ch '<' :: tag) <:+: after) (hdoc : doc.drop pos = items.flatMap Item.text ++ after)
    (hfuel : items.length < fuel) :
    (elementsFrom doc tag fuel pos).map (fun e => (e.inner, e.attrs)) = items.map fun i => (i.inner, i.attrs) := by
  induction items generalizing pos fuel with
  | nil =>
    obtain ⟨fuel, rfl⟩ : ∃ n, fuel = n + 1 := ⟨fuel - 1, by simp at hfuel; omega⟩
    rw [List.flatMap_nil, List.nil_append] at hdoc
    rw [elementsFrom, nextElement_none hdoc (free_before htag hafter (.inl rfl))]
    rfl
  | cons i items ih =>
    obtain ⟨fuel, rfl⟩ : ∃ n, fuel = n + 1 := ⟨fuel - 1, by simp at hfuel; omega⟩
    have hsplit : doc.drop pos = i.before ++ (i.render ++ (items.flatMap Item.text ++ after)) := by
      rw [hdoc, List.flatMap_cons, Item.text]
      simp only [List.append_assoc]
    have hhead : (i.render ++ (items.flatMap Item.text ++ after)).head? = some (ch '<') := by
      rw [List.head?_append, i.render_ne_nil]
      rfl
    have hnext := nextElement_render i.toElem hsplit (by rw [i.name_eq]; exact free_before htag i.before_ok (.inr hhead))
      fun b hb => by
        rw [i.content_eq] at hb
        rw [i.name_eq, ← Option.some.inj hb]
        exact i.body
    have hrest : doc.drop (pos + i.before.length + i.render.length) = items.flatMap Item.text ++ after :=
      drop_of_drop (drop_of_drop hsplit)
    rw [i.name_eq, i.content_eq, Option.getD_some] at hnext
    rw [elementsFrom, hnext, List.map_cons, List.map_cons]
    exact congrArg _ (ih hrest (by simpa using hfuel))

theorem elements_items {tag after : Bytes} (items : List (Item tag)) (htag : TagName tag)
    (hafter : ¬ (ch '<' :: tag) <:+: after) :
    (elements (items.flatMap Item.text ++ after) tag).map (fun e => (e.inner, e.attrs)) =
      items.map fun i => (i.inner, i.attrs) := by
  refine elementsFrom_items items htag hafter rfl ?_
  have hlen : ∀ items : List (Item tag), items.length ≤ (items.flatMap Item.text).length := by
    intro items
    induction items with
    | nil => exact Nat.le_refl 0
    | cons i items ih =>
      have hne : i.text ≠ [] := by
        intro hnil
        have := i.render_ne_nil
        rw [(List.append_eq_nil_iff.mp hnil).2] at this
        cases this
      have := List.length_pos_iff.mpr hne
      rw [List.flatMap_cons, List.length_append, List.length_cons]
      omega
  have := hlen items
  rw [List.length_append]
  omega

/-! ## Children -/

/-- The text has what looks like an opening tag of the name. -/
def Lookalike (name t : Bytes) : Prop := ∃ a d b, t = a ++ ch '<' :: (name ++ d :: b) ∧ nameEnd d = true

/-- No CDATA section before the child of the name has what looks like its opening tag. -/
def Item.Clear {tag : Bytes} (i : Item tag) (name : Bytes) : Prop :=
  ∀ c ∈ i.children.takeWhile (·.name ≠ name), ∀ t ht, c.holds = .cdata t ht → ¬ Lookalike name t

/-- The raw content of the child of a name, empty if there is none. -/
def Item.childContent {tag : Bytes} (i : Item tag) (name : Bytes) : Bytes :=
  ((i.children.find? (·.name = name)).bind (·.content)).getD []

theorem not_openAt_tag {name child r : Bytes} {d : UInt8} (hname : TagName name) (hchild : TagName child)
    (hne : child ≠ name) (hd : nameEnd d = true) : openAt name (ch '<' :: (child ++ d :: r)) = false := by
  by_contra hopen
  obtain ⟨d', r', heq, hd'⟩ := openAt_iff.mp (Bool.not_eq_false _ ▸ hopen)
  exact hne (hchild.eq_of_end hname (nameByte_end hd) (nameByte_end hd') (List.cons.inj heq).2)

/-- A `<` that is followed by a byte no name begins with. -/
theorem not_openAt_byte {name s : Bytes} {c : UInt8} (hname : TagName name) (hc : nameByte c = false) :
    openAt name (ch '<' :: c :: s) = false := by
  by_contra hopen
  obtain ⟨d, r, heq, -⟩ := openAt_iff.mp (Bool.not_eq_false _ ▸ hopen)
  obtain ⟨x, rest, rfl⟩ := List.exists_cons_of_ne_nil hname.ne_nil
  have hx := hname.bytes x List.mem_cons_self
  rw [← (List.cons.inj (List.cons.inj heq).2).1, hc] at hx
  cases hx

theorem free_cdata_text {name t : Bytes} (hname : TagName name) (ht : ¬ Lookalike name t) (b : Bytes) :
    Free (openAt name) t (cdataClose ++ b) := by
  intro i hi
  by_contra hopen
  obtain ⟨d, r, heq, hd⟩ := openAt_iff.mp (Bool.not_eq_false _ ▸ hopen)
  have hpos : 0 < (t.drop i).length := by
    rw [List.length_drop]
    omega
  rcases Nat.lt_or_ge (1 + name.length) (t.drop i).length with hlt | hge
  · refine ht ⟨t.take i, d, (t.drop i).drop (1 + name.length + 1), ?_, hd⟩
    have hpre : (ch '<' :: (name ++ [d])) <+: t.drop i := by
      have hwhole : (ch '<' :: (name ++ [d])) <+: t.drop i ++ (cdataClose ++ b) := ⟨r, by rw [heq]; simp⟩
      refine List.prefix_of_prefix_length_le hwhole (List.prefix_append _ _) ?_
      · simp only [List.length_cons, List.length_append, List.length_nil]
        omega
    obtain ⟨s, hs⟩ := hpre
    have hrest : (t.drop i).drop (1 + name.length + 1) = s := by
      rw [← hs]
      have hl : (ch '<' :: (name ++ [d])).length = 1 + name.length + 1 := by
        simp only [List.length_cons, List.length_append, List.length_nil]
        omega
      rw [← hl, List.drop_left]
    rw [hrest, ← List.take_append_drop i t]
    conv_lhs => rw [← hs]
    simp
  · -- the match would go on with the `]` after the text
    obtain ⟨k, hk⟩ : ∃ k, (t.drop i).length = k + 1 := ⟨(t.drop i).length - 1, by omega⟩
    have hsq : byteAt (t.drop i ++ (cdataClose ++ b)) (k + 1) = ch ']' := by
      rw [← hk]
      simp [byteAt, cdataClose, lit]
    rw [heq] at hsq
    have hbyte : byteAt (name ++ d :: r) k = ch ']' := hsq
    rcases Nat.lt_or_ge k name.length with hkn | hkn
    · have hmem : byteAt (name ++ d :: r) k ∈ name := by
        rw [byteAt, List.getD_eq_getElem?_getD, List.getElem?_append_left hkn, List.getElem?_eq_getElem hkn,
          Option.getD_some]
        exact List.getElem_mem hkn
      rw [hbyte] at hmem
      exact (nameByte_spec (hname.bytes _ hmem)).2.2.2.2.2 rfl
    · have hkeq : k = name.length := by omega
      have hdb : byteAt (name ++ d :: r) k = d := by
        rw [hkeq]
        simp [byteAt]
      rw [hdb] at hbyte
      rw [hbyte] at hd
      exact absurd hd (by decide)

/-- A child of another name has no opening tag of the name. -/
theorem Child.free {name : Bytes} (c : Child) (hname : TagName name) (hne : c.name ≠ name)
    (hclear : ∀ t ht, c.holds = .cdata t ht → ¬ Lookalike name t) (b : Bytes) : Free (openAt name) c.text b := by
  have hspace : ∀ d, c.attrs.head? = some d → nameEnd d = true := fun d hd => nameEnd_space (c.attrs_ok.head d hd)
  have htext : ∀ {a : Bytes}, NoTag a → ∀ b, Free (openAt name) a b := fun ha b => free_of_head openAt_head ha.beq b
  -- the opening tag, up to the byte that ends it
  have hopen : ∀ {d : UInt8} (a s : Bytes), nameEnd d = true → NoTag (d :: a) →
      Free (openAt name) (ch '<' :: (c.name ++ (c.attrs ++ d :: a))) s := by
    intro d a s hd ha
    refine free_cons.mpr ⟨?_, htext (c.name_ok.noTag.append (c.attrs_ok.noTag.append ha)) s⟩
    obtain ⟨d', r', heq, hd'⟩ := head_append_of hspace hd (a ++ s)
    have hshape : c.name ++ (c.attrs ++ d :: a) ++ s = c.name ++ d' :: r' := by
      rw [← heq]
      simp
    rw [hshape]
    exact not_openAt_tag hname c.name_ok hne hd'
  have hclose : ∀ s, Free (openAt name) c.closing s := by
    intro s
    refine free_cons.mpr ⟨not_openAt_byte hname (by decide), free_cons.mpr ⟨openAt_head _ _ (by decide), ?_⟩⟩
    refine htext (c.name_ok.noTag.append (c.space_ok.noTag.append ?_)) s
    decide
  have hgap : Free (openAt name) c.gap b := htext c.gap_ok b
  have heq := c.content_eq
  unfold Child.text Elem.render
  cases hc : c.holds with
  | empty =>
    rw [hc] at heq
    rw [heq]
    have := free_append.mpr ⟨hopen [ch '>'] (c.gap ++ b) (d := ch '/') rfl (by decide), hgap⟩
    simpa [Content.raw] using this
  | text t ht =>
    rw [hc] at heq
    rw [heq]
    have hgt : NoTag (ch '>' :: t) := by
      intro x hx
      rcases List.mem_cons.mp hx with rfl | hx
      · decide
      · exact ht x hx
    have := free_append.mpr ⟨hopen t (c.closing ++ c.gap ++ b) (d := ch '>') rfl hgt,
      free_append.mpr ⟨hclose (c.gap ++ b), hgap⟩⟩
    simpa [Content.raw] using this
  | cdata t ht =>
    rw [hc] at heq
    rw [heq]
    have hcdata : ∀ s, Free (openAt name) cdataOpen s := by
      intro s
      have hopen : cdataOpen = ch '<' :: ch '!' :: lit "[CDATA[" := by decide
      rw [hopen]
      exact free_cons.mpr ⟨not_openAt_byte hname (by decide),
        free_cons.mpr ⟨openAt_head _ _ (by decide), free_of_head openAt_head (NoTag.beq (by decide)) s⟩⟩
    have hend : ∀ s, Free (openAt name) cdataClose s := fun s => free_of_head openAt_head (NoTag.beq (by decide)) s
    have htail : Free (openAt name) (cdataClose ++ (c.closing ++ c.gap)) b :=
      free_append.mpr ⟨hend _, free_append.mpr ⟨hclose (c.gap ++ b), hgap⟩⟩
    have hmid : Free (openAt name) t (cdataClose ++ (c.closing ++ c.gap) ++ b) := by
      rw [List.append_assoc]
      exact free_cdata_text hname (hclear t ht hc) _
    have := free_append.mpr ⟨hopen [] _ (d := ch '>') rfl (by decide),
      free_append.mpr ⟨hcdata _, free_append.mpr ⟨hmid, htail⟩⟩⟩
    simpa [Content.raw, cdata] using this

/-- The content of a child is a text or a CDATA section. -/
theorem Child.content_body (c : Child) {b : Bytes} (hb : c.content = some b) : Body c.name b := by
  rw [c.content_eq] at hb
  cases hc : c.holds with
  | empty =>
    rw [hc] at hb
    cases hb
  | text t ht =>
    rw [hc] at hb
    cases hb
    exact .last (ht.plain c.name)
  | cdata t ht =>
    rw [hc] at hb
    cases hb
    have hnil : Plain c.name [] := fun b => ⟨free_nil b, free_nil b⟩
    have := Body.section_ hnil ht (.last hnil)
    simpa using this

/-- A child is found when nothing before it looks like it. -/
theorem childText_eq {tag : Bytes} (i : Item tag) {name : Bytes} (hname : TagName name) (hclear : i.Clear name) :
    childText i.inner name = i.childContent name := by
  have hlead : ∀ s, Free (openAt name) i.lead s := fun s => free_of_head openAt_head i.lead_ok.beq s
  have hbefore : ∀ cs : List Child, (∀ c ∈ cs, c.name ≠ name ∧ ∀ t ht, c.holds = .cdata t ht → ¬ Lookalike name t) →
      ∀ s, Free (openAt name) (cs.flatMap Child.text) s := by
    intro cs
    induction cs with
    | nil => exact fun _ s => free_nil s
    | cons c cs ih =>
      intro h s
      obtain ⟨hne, hc⟩ := h c List.mem_cons_self
      rw [List.flatMap_cons]
      exact free_append.mpr ⟨c.free hname hne hc _, ih (fun d hd => h d (List.mem_cons_of_mem c hd)) s⟩
  have hall : ∀ c ∈ i.children.takeWhile (·.name ≠ name), c.name ≠ name := fun c hc =>
    of_decide_eq_true (List.all_eq_true.mp List.all_takeWhile c hc)
  have hcs := hbefore (i.children.takeWhile (·.name ≠ name)) fun c hc => ⟨hall c hc, hclear c hc⟩
  have hfind : (i.children.takeWhile (·.name ≠ name)).find? (·.name = name) = none :=
    List.find?_eq_none.mpr fun c hc => by simpa using hall c hc
  have hsplit : i.children.takeWhile (·.name ≠ name) ++ i.children.dropWhile (·.name ≠ name) = i.children :=
    List.takeWhile_append_dropWhile
  unfold childText Item.childContent Item.inner
  cases hd : i.children.dropWhile (·.name ≠ name) with
  | nil =>
    rw [hd, List.append_nil] at hsplit
    rw [hsplit] at hcs hfind
    rw [nextElement_none rfl (free_append.mpr ⟨hlead _, hcs []⟩), hfind]
    rfl
  | cons c rest =>
    have hc : c.name = name := by
      have := List.head?_dropWhile_not (fun c : Child => decide (c.name ≠ name)) i.children
      rw [hd] at this
      simpa using this
    rw [hd] at hsplit
    have hinner : (i.lead ++ i.children.flatMap Child.text).drop 0 =
        (i.lead ++ (i.children.takeWhile (·.name ≠ name)).flatMap Child.text) ++
          (c.render ++ (c.gap ++ rest.flatMap Child.text)) := by
      rw [List.drop_zero]
      conv_lhs => rw [← hsplit]
      simp [Child.text]
    have hnext := nextElement_render c.toElem hinner (by rw [hc]; exact free_append.mpr ⟨hlead _, hcs _⟩)
      fun b hb => c.content_body hb
    rw [hc] at hnext
    rw [hnext, ← hsplit, List.find?_append, hfind, Option.none_or, List.find?_cons_of_pos (by simpa using hc)]
    rfl

/-! ## Progress on arbitrary bytes -/

theorem findOpen_bounds {doc name : Bytes} {pos lt : Nat} (h : findOpen doc name pos = some lt) :
    pos ≤ lt ∧ lt < doc.length := by
  rw [findOpen_eq_first] at h
  obtain ⟨n, hn, rfl⟩ := Option.map_eq_some_iff.mp h
  obtain ⟨-, hp, -⟩ := first_spec hn
  obtain ⟨d, r, heq, -⟩ := openAt_iff.mp hp
  have := congrArg List.length heq
  simp only [List.length_drop, List.length_cons, List.length_append] at this
  omega

theorem findClose_bounds {doc name : Bytes} {pos close : Nat} (h : findClose doc name pos = some close) :
    pos ≤ close ∧ close < doc.length := by
  rw [findClose_eq_first] at h
  obtain ⟨n, hn, rfl⟩ := Option.map_eq_some_iff.mp h
  obtain ⟨-, hp, -⟩ := first_spec hn
  obtain ⟨d, r, heq, -⟩ := closeAt_iff.mp hp
  have := congrArg List.length heq
  simp only [List.length_drop, List.length_cons, List.length_append] at this
  omega

/-- What the loop for a closing tag answers, without a bound on its rounds. -/
inductive Closes (doc name : Bytes) : Nat → Option Nat → Prop
  | none {pos : Nat} (h : findClose doc name pos = none) : Closes doc name pos none
  | found {pos close : Nat} (h : findClose doc name pos = some close)
    (hc : find cdataOpen (doc.take close) pos = none) : Closes doc name pos (some close)
  | unclosed {pos close c : Nat} (h : findClose doc name pos = some close)
    (hc : find cdataOpen (doc.take close) pos = some c) (he : find cdataClose doc (c + 9) = none) :
    Closes doc name pos none
  | skip {pos close c ce : Nat} {r : Option Nat} (h : findClose doc name pos = some close)
    (hc : find cdataOpen (doc.take close) pos = some c) (he : find cdataClose doc (c + 9) = some ce)
    (hlt : pos < ce + 3) (hr : Closes doc name (ce + 3) r) : Closes doc name pos r

/-- Every round goes on behind the last, so as many rounds as bytes are enough. -/
theorem closes_closeFrom {doc name : Bytes} {fuel pos : Nat} (h : doc.length < fuel + pos) :
    Closes doc name pos (closeFrom doc name fuel pos) := by
  induction fuel generalizing pos with
  | zero =>
    have hnone : findClose doc name pos = none := by
      cases hf : findClose doc name pos with
      | none => rfl
      | some close =>
        have := findClose_bounds hf
        omega
    exact .none hnone
  | succ fuel ih =>
    unfold closeFrom
    cases hf : findClose doc name pos with
    | none => exact .none hf
    | some close =>
      cases hc : find cdataOpen (doc.take close) pos with
      | none =>
        have hc' : find (lit "<![CDATA[") (doc.take close) pos = none := hc
        simp only [hc']
        exact .found hf hc
      | some c =>
        have hc' : find (lit "<![CDATA[") (doc.take close) pos = some c := hc
        simp only [hc']
        have hcb := (find_bounds hc).1
        cases he : find cdataClose doc (c + 9) with
        | none =>
          have he' : find (lit "]]>") doc (c + 9) = none := he
          simp only [he']
          exact .unclosed hf hc he
        | some ce =>
          have he' : find (lit "]]>") doc (c + 9) = some ce := he
          have heb := (find_bounds he).1
          simp only [he']
          exact .skip hf hc he (by omega) (ih (by omega))

theorem Closes.bounds {doc name : Bytes} {pos close : Nat} (h : Closes doc name pos (some close)) :
    pos ≤ close ∧ close < doc.length := by
  generalize hr : some close = r at h
  induction h with
  | none => cases hr
  | found h => cases hr; exact findClose_bounds h
  | unclosed => cases hr
  | skip _ _ _ hlt _ ih =>
    have := ih hr
    omega

/-- An element ends behind the place from which it was looked for. -/
theorem nextElement_stop {doc name : Bytes} {pos : Nat} {e : Element} (h : nextElement doc name pos = some e) :
    pos < e.stop ∧ e.stop ≤ doc.length := by
  unfold nextElement at h
  simp only [Option.bind_eq_bind] at h
  obtain ⟨lt, hlt, h⟩ := Option.bind_eq_some_iff.mp h
  obtain ⟨gt, hgt, h⟩ := Option.bind_eq_some_iff.mp h
  have hltb := findOpen_bounds hlt
  have hgtb := find_bounds hgt
  rw [List.length_singleton] at hgtb
  split at h
  · cases h
    constructor <;> simp only <;> omega
  · obtain ⟨close, hclose, h⟩ := Option.bind_eq_some_iff.mp h
    have hcloses : Closes doc name (gt + 1) (some close) := by
      rw [← hclose]
      exact closes_closeFrom (by omega)
    have hcb := hcloses.bounds
    cases h
    simp only
    cases hte : find [ch '>'] doc close with
    | none => constructor <;> simp only <;> omega
    | some te =>
      have hteb := find_bounds hte
      rw [List.length_singleton] at hteb
      constructor <;> simp only <;> omega

/-- The rounds of `for_each_item` and `for_each_element` from a position on: each ends behind the
last, within the document, and the loop stops when nothing more is found. -/
inductive Visits (doc name : Bytes) : Nat → List Element → Prop
  | done {pos : Nat} (h : nextElement doc name pos = none) : Visits doc name pos []
  | step {pos : Nat} {e : Element} {es : List Element} (h : nextElement doc name pos = some e)
    (hlt : pos < e.stop) (hle : e.stop ≤ doc.length) (hes : Visits doc name e.stop es) :
    Visits doc name pos (e :: es)

theorem visits_elements (doc name : Bytes) : Visits doc name 0 (elements doc name) := by
  have hfrom : ∀ (fuel pos : Nat), doc.length < fuel + pos → Visits doc name pos (elementsFrom doc name fuel pos) := by
    intro fuel
    induction fuel with
    | zero =>
      intro pos h
      have hnone : nextElement doc name pos = none := by
        cases hn : nextElement doc name pos with
        | none => rfl
        | some e =>
          have := nextElement_stop hn
          omega
      exact .done hnone
    | succ fuel ih =>
      intro pos h
      unfold elementsFrom
      cases hn : nextElement doc name pos with
      | none => exact .done hn
      | some e =>
        obtain ⟨hlt, hle⟩ := nextElement_stop hn
        exact .step hn hlt hle (ih e.stop (by omega))
  exact hfrom (doc.length + 1) 0 (by omega)

/-! ## Feeds -/

/-- The items of a feed are visited in order with their raw inner text, and the children of an item
are found unless a CDATA section before one has what looks like its opening tag; on any bytes the
loops end, each round behind the last. -/
theorem feed_items {tag : Bytes} (htag : TagName tag) (items : List (Item tag)) (after : Bytes)
    (hafter : ¬ (ch '<' :: tag) <:+: after) :
    (elements (items.flatMap Item.text ++ after) tag).map (fun e => (e.inner, e.attrs)) =
      items.map (fun i => (i.inner, i.attrs)) ∧
    (∀ i ∈ items, ∀ name, TagName name → i.Clear name → childText i.inner name = i.childContent name) ∧
    (∀ doc name : Bytes, Visits doc name 0 (elements doc name) ∧
      ∀ pos, 0 < pos → Closes doc name pos (closeFrom doc name doc.length pos)) :=
  ⟨elements_items items htag hafter, fun i _ _ hname hclear => childText_eq i hname hclear,
    fun doc name => ⟨visits_elements doc name, fun _ hpos => closes_closeFrom (by omega)⟩⟩

theorem tagName_of {name : Bytes} (h : name ≠ []) (h' : name.all nameByte = true) : TagName name :=
  ⟨h, List.all_eq_true.mp h'⟩

/-- An element without attributes. -/
def bare (name : Bytes) (content : Option Bytes) (h : TagName name) : Elem :=
  { name := name, attrs := [], content := content, space := [], name_ok := h, attrs_ok := ⟨nofun, nofun⟩,
    attrs_last := nofun, space_ok := nofun }

/-- `<description><![CDATA[<title>x</title>]]></description>` -/
def sampleDescription : Child :=
  { bare (lit "description") (some (cdata (lit "<title>x</title>"))) (tagName_of (by decide) (by decide)) with
    holds := .cdata (lit "<title>x</title>") (by decide)
    gap := []
    content_eq := rfl
    gap_ok := nofun }

/-- `<title>real</title>` -/
def sampleTitle : Child :=
  { bare (lit "title") (some (lit "real")) (tagName_of (by decide) (by decide)) with
    holds := .text (lit "real") (by decide)
    gap := []
    content_eq := rfl
    gap_ok := nofun }

def sampleItem : Item (lit "item") :=
  { bare (lit "item") (some ([sampleDescription, sampleTitle].flatMap Child.text)) (tagName_of (by decide) (by decide)) with
    before := []
    lead := []
    children := [sampleDescription, sampleTitle]
    name_eq := rfl
    content_eq := rfl
    lead_ok := nofun
    child_ne := by decide
    before_ok := by decide }

theorem feed_items_sample :
    (elements (sampleItem.text ++ []) (lit "item")).map (fun e => (e.inner, e.attrs)) = [(sampleItem.inner, [])] ∧
      childText sampleItem.inner (lit "description") = cdata (lit "<title>x</title>") := by
  obtain ⟨helems, hchild, -⟩ := feed_items (tagName_of (by decide) (by decide)) [sampleItem] [] (by decide)
  refine ⟨helems, hchild sampleItem (List.mem_singleton.mpr rfl) _ (tagName_of (by decide) (by decide)) ?_⟩
  intro c hc
  exact absurd hc (by simp [sampleItem, sampleDescription, bare])

/-- The title in the description is taken for that of the item. -/
theorem childText_title :
    childText sampleItem.inner (lit "title") = lit "x" ∧ sampleItem.childContent (lit "title") = lit "real" := by
  decide +kernel

end Stok.Xml
