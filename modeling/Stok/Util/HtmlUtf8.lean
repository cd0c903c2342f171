import Stok.Util.Html
import Stok.Util.Utf8

/-!
# UTF-8 through the HTML stripper

`html_to_text` copies the bytes of a text one by one and stops at a limit, and it decodes the
references it finds. The output is UTF-8 when the input is, but for two places: the limit is
reached in the middle of a character, or a reference to a surrogate is decoded. `htmlHeads` lists
where the loop stands at the head of its rounds, and `text_htmlToText_iff` says that the output is
UTF-8 exactly when none of them is one of the two.
-/

namespace Stok.Text

open Lib.SelfSync

/-! ## What follows a byte of ASCII -/

/-- `rest` is nothing, or what follows a byte of ASCII in `s`. -/
def AfterAscii (s rest : Bytes) : Prop := rest = [] ∨ ∃ a c, c.toNat < 0x80 ∧ s = a ++ c :: rest

namespace AfterAscii

variable {s t rest : Bytes} {c : UInt8}

theorem head (h : c.toNat < 0x80) : AfterAscii (c :: s) s := .inr ⟨[], c, h, rfl⟩

theorem length_le (h : AfterAscii (c :: s) rest) : rest.length ≤ s.length := by
  rcases h with rfl | ⟨a, d, -, h⟩
  · exact Nat.zero_le _
  · have := congrArg List.length h
    simp only [List.length_cons, List.length_append] at this
    omega

theorem text (h : AfterAscii s rest) (hs : utf8Code.Text s) : utf8Code.Text rest := by
  rcases h with rfl | ⟨a, d, hd, rfl⟩
  · exact .nil
  · exact ((text_append_ascii hd).mp hs).2

theorem of_suffix (h : AfterAscii t rest) (hs : t <:+ s) : AfterAscii s rest := by
  rcases h with rfl | ⟨a, d, hd, rfl⟩
  · exact .inl rfl
  · obtain ⟨b, rfl⟩ := hs
    exact .inr ⟨b ++ a, d, hd, by rw [List.append_assoc]⟩

end AfterAscii

theorem afterAscii_find {q s : Bytes} {x : UInt8} (hx : x.toNat < 0x80) {start e : Nat}
    (h : find (q ++ [x]) s start = some e) : AfterAscii s (s.drop (e + (q ++ [x]).length)) := by
  obtain ⟨-, -, ⟨r, hr⟩, -⟩ := find_eq_some.mp h
  have hdrop : s.drop (e + (q ++ [x]).length) = r := by
    rw [← List.drop_drop, ← hr, List.drop_left]
  refine .inr ⟨s.take e ++ q, x, hx, ?_⟩
  rw [hdrop, List.append_assoc, List.append_cons q, hr, List.take_append_drop]

theorem afterAscii_after {q : Bytes} {x : UInt8} (hx : x.toNat < 0x80) (s : Bytes) :
    AfterAscii s (after (q ++ [x]) s) := by
  unfold after
  split
  · exact afterAscii_find hx ‹_›
  · exact .inl rfl

/-- What stands before a pattern that begins with a byte of ASCII. -/
theorem text_take_find {q s : Bytes} {x : UInt8} (hx : x.toNat < 0x80) {start e : Nat}
    (h : find (x :: q) s start = some e) (hs : utf8Code.Text s) : utf8Code.Text (s.take e) := by
  obtain ⟨-, -, ⟨r, hr⟩, -⟩ := find_eq_some.mp h
  rw [← List.take_append_drop e s, ← hr] at hs
  exact ((text_append_ascii hx).mp hs).1

/-! ## References -/

theorem entity_utf8 {body t : Bytes} (h : entity body = some t) : ∃ cp < 0x110000, t = utf8 cp := by
  cases body with
  | nil => cases h
  | cons c ds =>
    simp only [entity] at h
    split at h
    · split at h
      · split at h
        · cases h
        · rename_i cp _ hcp
          exact ⟨cp, by omega, (Option.some.inj h).symm⟩
      · cases h
    · obtain ⟨n, hn, rfl⟩ := Option.map_eq_some_iff.mp h
      have hall : ∀ n ∈ kNamed, n.2 < 0x110000 := by decide
      exact ⟨n.2, hall n (List.mem_of_find?_eq_some hn), rfl⟩

theorem decodeOne_spec {s t rest : Bytes} (h : decodeOne s = some (t, rest)) :
    (∃ cp < 0x110000, t = utf8 cp) ∧ AfterAscii s rest := by
  simp only [decodeOne] at h
  split at h
  · rename_i hsemi
    obtain ⟨t', ht, he⟩ := Option.map_eq_some_iff.mp h
    obtain ⟨rfl, rfl⟩ := Prod.mk.inj he
    refine ⟨entity_utf8 ht, ?_⟩
    generalize (((s.take 12).drop 1).takeWhile fun c => c != ch ';' && c != ch '&' && !isSpace c).length
      = n at hsemi
    obtain ⟨hlt, hget⟩ := List.getElem?_eq_some_iff.mp hsemi
    rw [List.length_take] at hlt
    rw [List.getElem_take] at hget
    have hdrop := List.drop_eq_getElem_cons (show n + 1 < s.length by omega)
    rw [hget] at hdrop
    refine .inr ⟨s.take (n + 1), ch ';', by decide, ?_⟩
    rw [← hdrop, List.take_append_drop]
  · cases h

/-! ## One round of the loop -/

inductive Round where
  | stop
  | next (rest : Bytes) (o : HtmlOut)
  /-- A CDATA section, whose text goes through the stripper by itself. -/
  | cdata (inner rest : Bytes)

/-- The output after a reference: blanks of Unicode are white space, joiners are dropped. -/
def HtmlOut.pushEntity (o : HtmlOut) (t : Bytes) : HtmlOut :=
  if t = [0xC2, 0xA0] ∨ t = [0xE2, 0x80, 0x82] ∨ t = [0xE2, 0x80, 0x83] ∨
      t = [0xE2, 0x80, 0x89] then o.pushSpace
  else if t = [0xC2, 0xAD] ∨ t = [0xE2, 0x80, 0x8C] ∨ t = [0xE2, 0x80, 0x8D] then o
  else o.push t

/-- What the loop does with `c` and the text `s` after it. -/
def htmlRound (sep : UInt8) (startLen : Nat) (c : UInt8) (s : Bytes) (o : HtmlOut) : Round :=
  if c = ch '<' then
    if (lit "!--").isPrefixOf s then .next (after (lit "-->") (s.drop 3)) o
    else if (lit "![CDATA[").isPrefixOf s then
      .cdata
        (match find (lit "]]>") (s.drop 8) 0 with
          | some e => (s.drop 8).take e
          | none => s.drop 8)
        (after (lit "]]>") (s.drop 8))
    else
      let closing := s.head? = some (ch '/')
      let t := if closing then s.drop 1 else s
      let name := t.takeWhile isNameByte
      if name.isEmpty then .next s (o.push [c])
      else
        let rest := t.drop name.length
        match find [ch '>'] rest 0 with
        | none => .stop
        | some gt =>
          if !closing && (iequals name (lit "script") || iequals name (lit "style")) then
            let tag := if iequals name (lit "script") then lit "</script" else lit "</style"
            match ifind (rest.drop gt) tag with
            | none => .stop
            | some close =>
              .next (after [ch '>'] ((rest.drop gt).drop close)) (o.pushBlock startLen sep)
          else .next (rest.drop (gt + 1)) (if isBlockTag name then o.pushBlock startLen sep else o)
  else
    match if c = ch '&' then decodeOne (c :: s) else none with
    | some (t, rest) => .next rest (o.pushEntity t)
    | none => .next s (if isSpace c then o.pushSpace else o.push [c])

theorem htmlLoop_cons (sep : UInt8) (fuel startLen maxOut : Nat) (c : UInt8) (s : Bytes) (o : HtmlOut)
    (h : ¬ maxOut ≤ o.out.length - startLen) :
    htmlLoop sep (fuel + 1) startLen maxOut (c :: s) o =
      match htmlRound sep startLen c s o with
      | .stop => o
      | .next rest o => htmlLoop sep fuel startLen maxOut rest o
      | .cdata inner rest =>
        let n := o.out.length
        let room := maxOut - (n - startLen)
        let sub := htmlLoop sep fuel n room inner (.start o.out)
        htmlLoop sep fuel startLen maxOut rest (.start (htmlFinish n room sep sub.out)) := by
  rw [htmlLoop, if_neg h]
  unfold htmlRound
  split
  · split
    · rfl
    · split
      · rfl
      · dsimp only
        generalize (if s.head? = some (ch '/') then s.drop 1 else s) = t
        generalize t.takeWhile isNameByte = name
        cases name.isEmpty with
        | true => rfl
        | false =>
          simp only [Bool.false_eq_true, if_false]
          cases find [ch '>'] (t.drop name.length) 0 with
          | none => rfl
          | some gt =>
            dsimp only
            split
            · generalize ifind _ _ = f
              cases f <;> rfl
            · rfl
  · generalize (if c = ch '&' then decodeOne (c :: s) else none) = d
    cases d <;> rfl

/-- What a round can do. Markup and references end in a byte of ASCII. -/
inductive Does (sep : UInt8) (startLen : Nat) (c : UInt8) (s : Bytes) (o : HtmlOut) : Round → Prop
  | stop : c = ch '<' → Does sep startLen c s o .stop
  | markup {rest : Bytes} {o' : HtmlOut} : c = ch '<' → AfterAscii (c :: s) rest →
      (o' = o ∨ o' = o.pushBlock startLen sep) → Does sep startLen c s o (.next rest o')
  | cdata {inner rest : Bytes} : c = ch '<' → (utf8Code.Text (c :: s) → utf8Code.Text inner) →
      inner.length ≤ s.length → AfterAscii (c :: s) rest → Does sep startLen c s o (.cdata inner rest)
  | reference {t rest : Bytes} : c = ch '&' → decodeOne (c :: s) = some (t, rest) →
      Does sep startLen c s o (.next rest (o.pushEntity t))
  | space : isSpace c = true → Does sep startLen c s o (.next s o.pushSpace)
  | byte : (c = ch '&' → decodeOne (c :: s) = none) → Does sep startLen c s o (.next s (o.push [c]))

theorem htmlRound_does (sep : UInt8) (startLen : Nat) (c : UInt8) (s : Bytes) (o : HtmlOut) :
    Does sep startLen c s o (htmlRound sep startLen c s o) := by
  have hsub (n : Nat) : s.drop n <:+ c :: s := (List.drop_suffix n s).trans (List.suffix_cons c s)
  unfold htmlRound
  split
  · rename_i hc
    split
    · have hrest := afterAscii_after (q := lit "--") (x := ch '>') (by decide) (s.drop 3)
      exact .markup hc (hrest.of_suffix (hsub 3)) (.inl rfl)
    · split
      · rename_i _ hopen
        obtain ⟨r, hr⟩ := List.isPrefixOf_iff_prefix.mp hopen
        have hbody : AfterAscii (c :: s) (s.drop 8) := by
          refine .inr ⟨c :: lit "![CDATA", ch '[', by decide, ?_⟩
          rw [← hr]
          rfl
        have hrest := afterAscii_after (q := lit "]]") (x := ch '>') (by decide) (s.drop 8)
        refine .cdata hc ?_ ?_ (hrest.of_suffix (hsub 8))
        · intro hs
          split
          · exact text_take_find (q := lit "]>") (x := ch ']') (by decide) ‹_› (hbody.text hs)
          · exact hbody.text hs
        · split
          · simp only [List.length_take, List.length_drop]
            omega
          · rw [List.length_drop]
            omega
      · dsimp only
        generalize ht : (if s.head? = some (ch '/') then s.drop 1 else s) = t
        have htail : t <:+ c :: s := by
          rw [← ht]
          split
          · exact hsub 1
          · exact List.suffix_cons c s
        split
        · exact .byte fun h => absurd (hc.symm.trans h) (by decide)
        · split
          · exact .stop hc
          · rename_i gt hgt
            split
            · split
              · exact .stop hc
              · have hrest := afterAscii_after (q := []) (x := ch '>') (by decide)
                refine .markup hc ((hrest _).of_suffix ?_) (.inr rfl)
                exact (((List.drop_suffix _ _).trans (List.drop_suffix _ _)).trans
                  (List.drop_suffix _ _)).trans htail
            · have hrest := (afterAscii_find (q := []) (x := ch '>') (by decide) hgt).of_suffix
                ((List.drop_suffix _ _).trans htail)
              split
              · exact .markup hc hrest (.inr rfl)
              · exact .markup hc hrest (.inl rfl)
  · split
    · rename_i hdec
      split at hdec
      · exact .reference ‹_› hdec
      · cases hdec
    · rename_i hdec
      split
      · exact .space ‹_›
      · refine .byte fun hc => ?_
        rwa [if_pos hc] at hdec

/-! ## The heads of the rounds -/

/-- Where a round begins: how many bytes may still be put out, and what is left of the text. -/
structure Head where
  room : Nat
  rest : Bytes
  deriving DecidableEq, Repr

/-- The text is not left in the middle of a character, and no surrogate is put out whole. -/
def Head.Clean (h : Head) : Prop :=
  (h.room = 0 → h.rest.head?.all (!isCont ·)) ∧
    (3 ≤ h.room → h.rest.head? = some (ch '&') → (decodeOne h.rest).all (!surrogate ·.1))

instance (h : Head) : Decidable h.Clean :=
  inferInstanceAs (Decidable ((h.room = 0 → h.rest.head?.all (!isCont ·)) ∧
    (3 ≤ h.room → h.rest.head? = some (ch '&') → (decodeOne h.rest).all (!surrogate ·.1))))

/-- The heads of the rounds of `htmlLoop`, those in CDATA sections with them. -/
def htmlHeads (sep : UInt8) : Nat → Nat → Nat → Bytes → HtmlOut → List Head
  | 0, _, _, _, _ => []
  | _ + 1, _, _, [], _ => []
  | fuel + 1, startLen, maxOut, c :: s, o =>
    { room := maxOut - (o.out.length - startLen), rest := c :: s } ::
      if maxOut ≤ o.out.length - startLen then []
      else
        match htmlRound sep startLen c s o with
        | .stop => []
        | .next rest o => htmlHeads sep fuel startLen maxOut rest o
        | .cdata inner rest =>
          let n := o.out.length
          let room := maxOut - (n - startLen)
          let sub := htmlLoop sep fuel n room inner (.start o.out)
          htmlHeads sep fuel n room inner (.start o.out) ++
            htmlHeads sep fuel startLen maxOut rest (.start (htmlFinish n room sep sub.out))

/-- No round of `html_to_text` leaves the text inside a character or puts out a surrogate. -/
def HtmlClean (html out : Bytes) (maxOut : Nat) (sep : UInt8) : Prop :=
  ∀ h ∈ htmlHeads sep html.length out.length maxOut html (.start out), h.Clean

instance (html out : Bytes) (maxOut : Nat) (sep : UInt8) : Decidable (HtmlClean html out maxOut sep) :=
  inferInstanceAs (Decidable (∀ h ∈ _, Head.Clean h))

/-! ## Output that differs in trailing ASCII -/

namespace HtmlOut

variable {startLen : Nat} {o : HtmlOut}

theorem popWhile_append {p : UInt8 → Bool} (startLen : Nat) (out : Bytes) :
    ∃ x, out = popWhile p startLen out ++ x ∧ ∀ c ∈ x, p c = true := by
  refine ⟨((out.drop startLen).reverse.takeWhile p).reverse, ?_, fun c hc => ?_⟩
  · rw [popWhile, List.append_assoc, ← List.reverse_append, List.takeWhile_append_dropWhile,
      List.reverse_reverse, List.take_append_drop]
  · exact List.mem_takeWhile_imp (List.mem_reverse.mp hc)

theorem length_popWhile_le (p : UInt8 → Bool) (startLen : Nat) (out : Bytes) :
    (popWhile p startLen out).length ≤ out.length := by
  obtain ⟨x, hx, -⟩ := popWhile_append (p := p) startLen out
  have := congrArg List.length hx
  rw [List.length_append] at this
  omega

theorem le_length_popWhile {p : UInt8 → Bool} {out : Bytes} (h : startLen ≤ out.length) :
    startLen ≤ (popWhile p startLen out).length := by
  rw [popWhile, List.length_append, List.length_take, Nat.min_eq_left h]
  omega

theorem text_popWhile {p : UInt8 → Bool} (hp : ∀ c, p c = true → c.toNat < 0x80) (startLen : Nat)
    (out : Bytes) : utf8Code.Text (popWhile p startLen out) ↔ utf8Code.Text out := by
  obtain ⟨x, hx, hall⟩ := popWhile_append (p := p) startLen out
  conv_rhs => rw [hx]
  exact (text_append_all_ascii fun c hc => hp c (hall c hc)).symm

theorem popWhile_last {p : UInt8 → Bool} {out : Bytes} {c : UInt8} (hc : p c = false) :
    popWhile p startLen (out ++ [c]) = out ++ [c] := by
  obtain ⟨x, hx, hall⟩ := popWhile_append (p := p) startLen (out ++ [c])
  cases hxr : x.reverse with
  | nil =>
    rw [List.reverse_eq_nil_iff.mp hxr, List.append_nil] at hx
    exact hx.symm
  | cons d y =>
    rw [List.reverse_eq_cons_iff.mp hxr, ← List.append_assoc] at hx
    have hcd : c = d := List.singleton_inj.mp (List.append_inj_right' hx rfl)
    have hd : p d = true := hall d (List.mem_reverse.mp (hxr ▸ List.mem_cons_self))
    rw [hcd, hd] at hc
    cases hc

/-- `o'` differs from `o` in ASCII at its end, and is one byte longer at most. -/
structure Near (startLen : Nat) (o o' : HtmlOut) : Prop where
  text : utf8Code.Text o'.out ↔ utf8Code.Text o.out
  ge : startLen ≤ o'.out.length
  le : o'.out.length ≤ o.out.length + 1

theorem near_self (h : startLen ≤ o.out.length) : Near startLen o o := ⟨.rfl, h, Nat.le_succ _⟩

theorem near_of_append {o' : HtmlOut} {c : UInt8} (h : startLen ≤ o.out.length) (hc : c.toNat < 0x80)
    (ho : o'.out = o.out ++ [c]) : Near startLen o o' := by
  refine ⟨?_, ?_, ?_⟩
  · rw [ho]
    exact text_append_all_ascii fun d hd => List.mem_singleton.mp hd ▸ hc
  · rw [ho, List.length_append]
    omega
  · rw [ho, List.length_append, List.length_singleton]

theorem near_pushSpace (h : startLen ≤ o.out.length) : Near startLen o o.pushSpace := by
  unfold pushSpace
  split
  · exact near_self h
  · exact near_of_append (c := 32) h (by decide) rfl

theorem near_pushBlock {sep : UInt8} (h : startLen ≤ o.out.length) (hsep : sep.toNat < 0x80) :
    Near startLen o (o.pushBlock startLen sep) := by
  unfold pushBlock
  split
  · exact near_pushSpace h
  · have htext := text_popWhile (p := (· == 32)) (fun c hc => by rw [beq_iff_eq.mp hc]; decide)
      startLen o.out
    have hge := le_length_popWhile (p := (· == 32)) h
    have hle := length_popWhile_le (· == 32) startLen o.out
    dsimp only
    generalize popWhile (· == 32) startLen o.out = out at htext hge hle
    split
    · refine ⟨?_, ?_, ?_⟩
      · rw [← htext]
        exact text_append_all_ascii fun d hd => List.mem_singleton.mp hd ▸ hsep
      · simp only [List.length_append]
        omega
      · simp only [List.length_append, List.length_singleton]
        omega
    · exact ⟨htext, hge, by dsimp only; omega⟩

theorem pushEntity_cases (h : startLen ≤ o.out.length) (t : Bytes) :
    (surrogate t = false ∧ Near startLen o (o.pushEntity t)) ∨ o.pushEntity t = o.push t := by
  unfold pushEntity
  split
  · rename_i ht
    refine .inl ⟨?_, near_pushSpace h⟩
    rcases ht with rfl | rfl | rfl | rfl <;> decide
  · split
    · rename_i ht
      refine .inl ⟨?_, near_self h⟩
      rcases ht with rfl | rfl | rfl <;> decide
    · exact .inr rfl

end HtmlOut

/-! ## The last steps -/

section Finish

variable {sep : UInt8} {startLen maxOut : Nat} {out : Bytes}

theorem trailing_ascii (hsep : sep.toNat < 0x80) (c : UInt8) (hc : (c == 32 || c == sep) = true) :
    c.toNat < 0x80 := by
  rcases Bool.or_eq_true _ _ |>.mp hc with h | h
  · rw [beq_iff_eq.mp h]
    decide
  · rwa [beq_iff_eq.mp h]

theorem htmlFinish_le (sep : UInt8) (startLen maxOut : Nat) (out : Bytes) :
    (htmlFinish startLen maxOut sep out).length ≤ startLen + maxOut := by
  unfold htmlFinish
  dsimp only
  split
  · have := utf8Cut_le ((HtmlOut.popWhile (fun c => c == 32 || c == sep) startLen out).drop startLen) maxOut
    rw [List.length_take]
    omega
  · omega

theorem le_htmlFinish (sep : UInt8) (maxOut : Nat) (h : startLen ≤ out.length) :
    startLen ≤ (htmlFinish startLen maxOut sep out).length := by
  have hge := HtmlOut.le_length_popWhile (p := fun c => c == 32 || c == sep) h
  unfold htmlFinish
  dsimp only
  split
  · rw [List.length_take]
    omega
  · exact hge

theorem text_htmlFinish (hsep : sep.toNat < 0x80) (h : out.length ≤ startLen + maxOut) :
    utf8Code.Text (htmlFinish startLen maxOut sep out) ↔ utf8Code.Text out := by
  have hle := HtmlOut.length_popWhile_le (fun c => c == 32 || c == sep) startLen out
  unfold htmlFinish
  dsimp only
  rw [if_neg (by omega)]
  exact HtmlOut.text_popWhile (trailing_ascii hsep) startLen out

/-- A reference that went over the limit is taken back. -/
theorem htmlFinish_over {t : Bytes} {b : UInt8} (hsep : sep.toNat < 0x80) (hb : isCont b = false)
    (ht : ∀ c ∈ t, isCont c = true) (h1 : startLen ≤ out.length) (h2 : out.length < startLen + maxOut)
    (h3 : startLen + maxOut < out.length + (b :: t).length) :
    htmlFinish startLen maxOut sep (out ++ b :: t) = out := by
  have hpop : HtmlOut.popWhile (fun c => c == 32 || c == sep) startLen (out ++ b :: t) = out ++ b :: t := by
    rcases List.eq_nil_or_concat t with rfl | ⟨u, d, rfl⟩
    · simp only [List.length_cons, List.length_nil] at h3
      omega
    · have hd := (isCont_iff d).mp (ht d (by simp))
      have hnot : (d == 32 || d == sep) = false := by
        rw [← Bool.not_eq_true]
        intro h
        have := trailing_ascii hsep d h
        omega
      rw [List.concat_eq_append, ← List.cons_append, ← List.append_assoc]
      exact HtmlOut.popWhile_last hnot
  have hcut : utf8Cut (out.drop startLen ++ b :: t) maxOut = (out.drop startLen).length := by
    rw [List.length_cons] at h3
    refine utf8Cut_word hb ht ?_ ?_ <;> rw [List.length_drop] <;> omega
  unfold htmlFinish
  dsimp only
  rw [hpop, if_pos (by rw [List.length_append]; omega), List.drop_append_of_le_length h1, hcut,
    List.length_drop, show startLen + (out.length - startLen) = out.length by omega, List.take_left]

end Finish

/-! ## The loop -/

section Loop

variable {sep : UInt8} {fuel startLen maxOut : Nat} {o : HtmlOut} {c : UInt8} {s rest v p : Bytes}

/-- At the head of a round the output is `v ++ p`, and `p` begins a character that `rest` ends. The
output of the loop is UTF-8 when `v` is and the rounds that are left are clean. -/
def Exact (sep : UInt8) (fuel startLen maxOut : Nat) (rest : Bytes) (o : HtmlOut) (v : Bytes) : Prop :=
  startLen ≤ (htmlLoop sep fuel startLen maxOut rest o).out.length ∧
    (utf8Code.Text (htmlFinish startLen maxOut sep (htmlLoop sep fuel startLen maxOut rest o).out) ↔
      utf8Code.Text v ∧ ∀ h ∈ htmlHeads sep fuel startLen maxOut rest o, h.Clean)

theorem htmlLoop_full (h : maxOut ≤ o.out.length - startLen) :
    htmlLoop sep fuel startLen maxOut rest o = o := by
  cases fuel with
  | zero => rfl
  | succ fuel =>
    cases rest with
    | nil => rfl
    | cons c s => rw [htmlLoop, if_pos h]

theorem htmlHeads_full (h : maxOut ≤ o.out.length - startLen) (hrest : utf8Code.Text rest) :
    ∀ x ∈ htmlHeads sep fuel startLen maxOut rest o, x.Clean := by
  cases fuel with
  | zero => exact nofun
  | succ fuel =>
    cases rest with
    | nil => exact nofun
    | cons c s =>
      intro x hx
      rw [htmlHeads, if_pos h, List.mem_singleton] at hx
      have hc : isCont c = false := Code.starts_cons.mp hrest.starts
      subst hx
      refine ⟨fun _ => by simp [hc], fun h3 => ?_⟩
      dsimp only at h3
      omega

/-- A head with room is clean when no reference begins there. -/
theorem clean_of_room {h : Head} (hroom : h.room ≠ 0)
    (href : 3 ≤ h.room → h.rest.head? = some (ch '&') → (decodeOne h.rest).all (!surrogate ·.1)) :
    h.Clean :=
  ⟨fun h0 => absurd h0 hroom, href⟩

theorem not_reference (hc : c ≠ ch '&') {P : Prop} : (c :: s).head? = some (ch '&') → P :=
  fun h => absurd (Option.some.inj h) hc

theorem length_surrogate {t : Bytes} (h : surrogate t = true) : t.length = 3 := by
  match t with
  | [_, _, _] => rfl
  | [] | [_] | [_, _] | _ :: _ :: _ :: _ :: _ => cases h

/-- What is known at the head of a round. -/
structure At (startLen maxOut : Nat) (rest : Bytes) (o : HtmlOut) (v p : Bytes) : Prop where
  out : o.out = v ++ p
  text : utf8Code.Text (p ++ rest)
  ge : startLen ≤ o.out.length
  le : o.out.length ≤ startLen + maxOut

/-- At a byte of ASCII no character is open. -/
theorem At.ascii (h : At startLen maxOut (c :: s) o v p) (hc : c.toNat < 0x80) :
    (utf8Code.Text o.out ↔ utf8Code.Text v) ∧ utf8Code.Text (c :: s) := by
  have hp := (text_append_ascii hc).mp h.text
  refine ⟨?_, (text_ascii hc).append hp.2⟩
  rw [h.out, Code.text_append_iff hp.1.starts]
  exact and_iff_left hp.1

theorem At.text_out (h : At startLen maxOut rest o v p) :
    utf8Code.Text o.out ↔ utf8Code.Text v ∧ utf8Code.Starts rest := by
  have hp : utf8Code.Starts p := by
    cases p with
    | nil => exact Code.starts_nil
    | cons b p => exact Code.starts_cons.mpr (Code.starts_cons.mp h.text.starts)
  rw [h.out, Code.text_append_iff hp, Code.text_left_iff h.text]

theorem exact_end (hsep : sep.toNat < 0x80) (h : At startLen maxOut [] o v p) :
    Exact sep fuel startLen maxOut [] o v := by
  have hloop : htmlLoop sep fuel startLen maxOut [] o = o := by cases fuel <;> rfl
  have hheads : htmlHeads sep fuel startLen maxOut [] o = [] := by cases fuel <;> rfl
  rw [Exact, hloop, hheads]
  refine ⟨h.ge, ?_⟩
  rw [text_htmlFinish hsep h.le, h.text_out]
  simp [Code.starts_nil]

theorem exact_full (hsep : sep.toNat < 0x80) (h : At startLen maxOut (c :: s) o v p)
    (hfull : maxOut ≤ o.out.length - startLen) : Exact sep (fuel + 1) startLen maxOut (c :: s) o v := by
  rw [Exact, htmlLoop_full hfull, htmlHeads, if_pos hfull]
  refine ⟨h.ge, ?_⟩
  rw [text_htmlFinish hsep h.le, h.text_out, Code.starts_cons]
  have hclean : Head.Clean { room := maxOut - (o.out.length - startLen), rest := c :: s } ↔
      isCont c = false := by
    have h0 : maxOut - (o.out.length - startLen) = 0 := by omega
    simp [Head.Clean, h0]
  simp only [List.mem_singleton, forall_eq, hclean]
  exact .rfl

/-- A round that goes on: what is new in the output decides with the head of the round. -/
theorem exact_next {o' : HtmlOut} {v' : Bytes} (hroom : ¬ maxOut ≤ o.out.length - startLen)
    (hround : htmlRound sep startLen c s o = .next rest o')
    (hnext : Exact sep fuel startLen maxOut rest o' v')
    (hv : utf8Code.Text v' ↔ utf8Code.Text v ∧
      Head.Clean { room := maxOut - (o.out.length - startLen), rest := c :: s }) :
    Exact sep (fuel + 1) startLen maxOut (c :: s) o v := by
  obtain ⟨hge, htext⟩ := hnext
  rw [Exact, htmlLoop_cons sep fuel startLen maxOut c s o hroom, htmlHeads, if_neg hroom, hround]
  refine ⟨hge, ?_⟩
  rw [htext, hv, List.forall_mem_cons, and_assoc]

theorem exact_stop (hsep : sep.toNat < 0x80) (h : At startLen maxOut (c :: s) o v p)
    (hroom : ¬ maxOut ≤ o.out.length - startLen) (hc : c = ch '<')
    (hround : htmlRound sep startLen c s o = .stop) :
    Exact sep (fuel + 1) startLen maxOut (c :: s) o v := by
  have hascii := (h.ascii (by rw [hc]; decide)).1
  rw [Exact, htmlLoop_cons sep fuel startLen maxOut c s o hroom, htmlHeads, if_neg hroom, hround]
  refine ⟨h.ge, ?_⟩
  rw [text_htmlFinish hsep h.le, hascii]
  refine (and_iff_left ?_).symm
  rw [List.forall_mem_singleton]
  exact clean_of_room (by dsimp only; omega) fun _ => not_reference (by rw [hc]; decide)

/-- Output that is new in ASCII only. -/
theorem at_near {o' : HtmlOut} (h : At startLen maxOut (c :: s) o v p)
    (hroom : ¬ maxOut ≤ o.out.length - startLen) (hnear : HtmlOut.Near startLen o o')
    (hrest : utf8Code.Text rest) : At startLen maxOut rest o' o'.out [] where
  out := (List.append_nil _).symm
  text := hrest
  ge := hnear.ge
  le := by
    have := hnear.le
    have := h.ge
    omega

/-- A reference that is put out. -/
theorem exact_reference {t : Bytes} (hsep : sep.toNat < 0x80) (h : At startLen maxOut (c :: s) o v p)
    (hroom : ¬ maxOut ≤ o.out.length - startLen) (hc : c = ch '&')
    (hdec : decodeOne (c :: s) = some (t, rest))
    (hround : htmlRound sep startLen c s o = .next rest (o.push t))
    (hih : ∀ {o' : HtmlOut} {v' p' : Bytes}, At startLen maxOut rest o' v' p' →
      Exact sep fuel startLen maxOut rest o' v') :
    Exact sep (fuel + 1) startLen maxOut (c :: s) o v := by
  obtain ⟨hout, hcs⟩ := h.ascii (by rw [hc]; decide)
  obtain ⟨⟨cp, hcp, rfl⟩, hafter⟩ := decodeOne_spec hdec
  have hrest := hafter.text hcs
  obtain ⟨b, u, hu, hb, hcont, -⟩ := utf8_shape hcp
  have hge := h.ge
  have hstarts : utf8Code.Starts (utf8 cp) := hu ▸ Code.starts_cons.mpr hb
  -- a surrogate counts when it fits
  have hhead : Head.Clean { room := maxOut - (o.out.length - startLen), rest := c :: s } ↔
      (3 ≤ maxOut - (o.out.length - startLen) → surrogate (utf8 cp) = false) := by
    have h0 : maxOut - (o.out.length - startLen) ≠ 0 := by omega
    constructor
    · intro hclean h3
      have := hclean.2 h3 (by rw [hc]; rfl)
      rw [hdec] at this
      simpa using this
    · intro hs
      refine clean_of_room h0 fun h3 _ => ?_
      dsimp only
      rw [hdec, Option.all_some, hs h3]
      rfl
  rcases Nat.lt_or_ge (startLen + maxOut) (o.push (utf8 cp)).out.length with hover | hfit
  · -- it goes over the limit, and the loop ends
    rw [HtmlOut.push, List.length_append, hu] at hover
    have hfinish : htmlFinish startLen maxOut sep (o.push (utf8 cp)).out = o.out := by
      rw [HtmlOut.push, hu]
      exact htmlFinish_over hsep hb hcont hge (by omega) hover
    have hfull : maxOut ≤ (o.push (utf8 cp)).out.length - startLen := by
      rw [HtmlOut.push, List.length_append, hu]
      omega
    have hnext : Exact sep fuel startLen maxOut rest (o.push (utf8 cp)) o.out := by
      refine ⟨?_, ?_⟩
      · rw [htmlLoop_full hfull, HtmlOut.push, List.length_append]
        omega
      · rw [htmlLoop_full hfull, hfinish]
        exact (and_iff_left (htmlHeads_full hfull hrest)).symm
    refine exact_next hroom hround hnext ?_
    rw [hout, hhead]
    refine (and_iff_left fun h3 => ?_).symm
    rw [← Bool.not_eq_true]
    intro hs
    have hlen := length_surrogate hs
    rw [← hu] at hover
    omega
  · have hat : At startLen maxOut rest (o.push (utf8 cp)) (o.push (utf8 cp)).out [] :=
      ⟨(List.append_nil _).symm, hrest, by rw [HtmlOut.push, List.length_append]; omega, hfit⟩
    refine exact_next hroom hround (hih hat) ?_
    rw [HtmlOut.push, Code.text_append_iff hstarts, hout, text_utf8_iff hcp, hhead]
    refine and_congr_right fun _ => ⟨fun hs _ => hs, fun hs => ?_⟩
    rw [← Bool.not_eq_true]
    intro hsur
    have hlen := length_surrogate hsur
    rw [HtmlOut.push, List.length_append, hlen] at hfit
    rw [hs (by omega)] at hsur
    cases hsur

/-- A CDATA section: what it leaves is UTF-8 when the rounds in it are clean. -/
theorem exact_cdata {inner : Bytes} (h : At startLen maxOut (c :: s) o v p)
    (hroom : ¬ maxOut ≤ o.out.length - startLen) (hc : c = ch '<')
    (hround : htmlRound sep startLen c s o = .cdata inner rest) (hinner : utf8Code.Text inner)
    (hrest : utf8Code.Text rest)
    (hih : ∀ {startLen maxOut : Nat} {o' : HtmlOut} {v' p' : Bytes}, At startLen maxOut inner o' v' p' →
      Exact sep fuel startLen maxOut inner o' v')
    (hih' : ∀ {o' : HtmlOut} {v' p' : Bytes}, At startLen maxOut rest o' v' p' →
      Exact sep fuel startLen maxOut rest o' v') :
    Exact sep (fuel + 1) startLen maxOut (c :: s) o v := by
  have hout := (h.ascii (by rw [hc]; decide)).1
  have hge := h.ge
  have hsub := @hih o.out.length (maxOut - (o.out.length - startLen)) (.start o.out) o.out []
    ⟨(List.append_nil _).symm, hinner, le_rfl, Nat.le_add_right _ _⟩
  obtain ⟨hsublen, hsubtext⟩ := hsub
  rw [Exact, htmlLoop_cons sep fuel startLen maxOut c s o hroom, htmlHeads, if_neg hroom, hround]
  dsimp only
  generalize htmlLoop sep fuel o.out.length (maxOut - (o.out.length - startLen)) inner (.start o.out)
    = sub at hsublen hsubtext
  have hle := htmlFinish_le sep o.out.length (maxOut - (o.out.length - startLen)) sub.out
  have hlen := le_htmlFinish sep (maxOut - (o.out.length - startLen)) hsublen
  generalize htmlFinish o.out.length (maxOut - (o.out.length - startLen)) sep sub.out
    = r at hsubtext hle hlen
  have hat : At startLen maxOut rest (.start r) r [] :=
    ⟨(List.append_nil _).symm, hrest, by change startLen ≤ r.length; omega,
      by change r.length ≤ startLen + maxOut; omega⟩
  obtain ⟨hgo, htext⟩ := hih' hat
  refine ⟨hgo, ?_⟩
  rw [htext, hsubtext, hout, List.forall_mem_cons, List.forall_mem_append, and_assoc]
  refine and_congr_right fun _ => (and_iff_right ?_).symm
  exact clean_of_room (by dsimp only; omega) fun _ => not_reference (by rw [hc]; decide)

theorem htmlLoop_exact (hsep : sep.toNat < 0x80) (fuel : Nat) :
    ∀ {startLen maxOut : Nat} {rest : Bytes} {o : HtmlOut} {v p : Bytes}, rest.length ≤ fuel →
      At startLen maxOut rest o v p → Exact sep fuel startLen maxOut rest o v := by
  induction fuel with
  | zero =>
    intro startLen maxOut rest o v p hfuel h
    obtain rfl := List.length_eq_zero_iff.mp (Nat.le_zero.mp hfuel)
    exact exact_end hsep h
  | succ fuel ih =>
    intro startLen maxOut rest o v p hfuel h
    cases rest with
    | nil => exact exact_end hsep h
    | cons c s =>
      have hs : s.length ≤ fuel := Nat.le_of_succ_le_succ hfuel
      by_cases hroom : maxOut ≤ o.out.length - startLen
      · exact exact_full hsep h hroom
      have hroom0 : maxOut - (o.out.length - startLen) ≠ 0 := by omega
      have hdoes := htmlRound_does sep startLen c s o
      generalize hround : htmlRound sep startLen c s o = r at hdoes
      cases hdoes with
      | stop hc => exact exact_stop hsep h hroom hc hround
      | @markup rest o' hc hafter ho =>
        obtain ⟨hout, hcs⟩ := h.ascii (by rw [hc]; decide)
        have hnear : HtmlOut.Near startLen o o' := by
          rcases ho with rfl | rfl
          · exact HtmlOut.near_self h.ge
          · exact HtmlOut.near_pushBlock h.ge hsep
        have hat := at_near h hroom hnear (hafter.text hcs)
        refine exact_next hroom hround (ih (hafter.length_le.trans hs) hat) ?_
        rw [hnear.text, hout]
        exact (and_iff_left (clean_of_room hroom0 fun _ => not_reference (by rw [hc]; decide))).symm
      | cdata hc hinner hlen hafter =>
        obtain ⟨-, hcs⟩ := h.ascii (by rw [hc]; decide)
        exact exact_cdata h hroom hc hround (hinner hcs) (hafter.text hcs)
          (ih (hlen.trans hs)) (ih (hafter.length_le.trans hs))
      | @reference t rest hc hdec =>
        obtain ⟨hout, hcs⟩ := h.ascii (by rw [hc]; decide)
        have hafter := (decodeOne_spec hdec).2
        have hlen := hafter.length_le.trans hs
        rcases HtmlOut.pushEntity_cases h.ge t with ⟨hsur, hnear⟩ | hpush
        · have hat := at_near h hroom hnear (hafter.text hcs)
          refine exact_next hroom hround (ih hlen hat) ?_
          rw [hnear.text, hout]
          refine (and_iff_left (clean_of_room hroom0 fun _ _ => ?_)).symm
          dsimp only
          rw [hdec, Option.all_some, hsur]
          rfl
        · exact exact_reference hsep h hroom hc hdec (hpush ▸ hround) (ih hlen)
      | space hc =>
        have hascii := isSpace_ascii hc
        obtain ⟨hout, hcs⟩ := h.ascii hascii
        have hnear := HtmlOut.near_pushSpace h.ge
        have hat := at_near h hroom hnear ((AfterAscii.head hascii).text hcs)
        refine exact_next hroom hround (ih hs hat) ?_
        rw [hnear.text, hout]
        refine (and_iff_left (clean_of_room hroom0 fun _ => not_reference ?_)).symm
        rintro rfl
        exact absurd hc (by decide)
      | byte hnone =>
        have hat : At startLen maxOut s (o.push [c]) v (p ++ [c]) := by
          have hge := h.ge
          refine ⟨?_, ?_, ?_, ?_⟩
          · rw [HtmlOut.push, h.out, List.append_assoc]
          · rw [List.append_assoc]
            exact h.text
          · rw [HtmlOut.push, List.length_append]
            omega
          · rw [HtmlOut.push, List.length_append, List.length_singleton]
            omega
        refine exact_next hroom hround (ih hs hat) ?_
        refine (and_iff_left (clean_of_room hroom0 fun _ hc => ?_)).symm
        dsimp only at hc ⊢
        rw [hnone (Option.some.inj hc)]
        rfl

end Loop

/-- The text that `html_to_text` leaves is UTF-8 exactly when its rounds are clean. -/
theorem text_htmlToText_iff {sep : UInt8} {html out : Bytes} (hsep : sep.toNat < 0x80)
    (hhtml : utf8Code.Text html) (hout : utf8Code.Text out) (maxOut : Nat) :
    utf8Code.Text (htmlToText html out maxOut sep) ↔ HtmlClean html out maxOut sep := by
  have hat : At out.length maxOut html (.start out) out [] :=
    ⟨(List.append_nil _).symm, hhtml, le_rfl, Nat.le_add_right _ _⟩
  exact ((htmlLoop_exact hsep html.length le_rfl hat).2).trans (and_iff_right hout)

end Stok.Text
