import Mathlib
import Stok.Feeds.Parsers
import Stok.Feeds.XmlItems
import Stok.Research.NewsRoundTrip

/-!
# Live and replayed headline keys

An event's key is a hash of its headline, normalised to words. The feed parsers take the key of
the headline they have put together, the event keeps at most 255 bytes of it, and the loader takes
the key of those. The two texts are the same words exactly when nothing but punctuation was
cut off.
-/

namespace Stok

namespace Text

/-- The text that `headlineKey` hashes. -/
def headlineText (title : Bytes) : Bytes := (headlineFrom 0 true title).rdropWhile (· == 32)

theorem headlineKey_eq (title : Bytes) : headlineKey title = hashBytes (headlineText title) := rfl

/-- While the buffer has room, a headline is normalised piece by piece. -/
theorem headlineFrom_append (a : Bytes) (n : Nat) (sep : Bool) (h : n + a.length < 511) :
    ∃ n' sep', n' ≤ n + a.length ∧
      ∀ b, headlineFrom n sep (a ++ b) = headlineFrom n sep a ++ headlineFrom n' sep' b := by
  induction a generalizing n sep with
  | nil => exact ⟨n, sep, le_rfl, fun b => rfl⟩
  | cons c a ih =>
    rw [List.length_cons] at h
    have hroom : ¬ 511 ≤ n := by omega
    cases hc : isAlnum c with
    | true =>
      obtain ⟨n', sep', hle, heq⟩ := ih (n + 1) false (by omega)
      refine ⟨n', sep', by rw [List.length_cons]; omega, fun b => ?_⟩
      simp [headlineFrom, hroom, hc, heq]
    | false =>
      cases sep with
      | true =>
        obtain ⟨n', sep', hle, heq⟩ := ih n true (by omega)
        refine ⟨n', sep', by rw [List.length_cons]; omega, fun b => ?_⟩
        simp [headlineFrom, hroom, hc, heq]
      | false =>
        obtain ⟨n', sep', hle, heq⟩ := ih (n + 1) true (by omega)
        refine ⟨n', sep', by rw [List.length_cons]; omega, fun b => ?_⟩
        simp [headlineFrom, hroom, hc, heq]

/-- Punctuation alone leaves blanks. -/
theorem headlineFrom_plain (b : Bytes) (hb : ∀ c ∈ b, isAlnum c = false) (n : Nat) (sep : Bool) :
    ∀ d ∈ headlineFrom n sep b, (d == 32) = true := by
  induction b generalizing n sep with
  | nil => exact List.forall_mem_nil _
  | cons c b ih =>
    obtain ⟨hc, hb⟩ := List.forall_mem_cons.mp hb
    rw [headlineFrom, hc]
    rcases Nat.lt_or_ge n 511 with hn | hn
    · rw [if_neg (by omega)]
      cases sep with
      | true => exact ih hb n true
      | false =>
        intro d hd
        rcases List.mem_cons.mp hd with rfl | hd
        · rfl
        · exact ih hb _ _ d hd
    · rw [if_pos hn]
      exact List.forall_mem_nil _

theorem toLower_ne_blank {c : UInt8} (h : isAlnum c = true) : (toLower c == 32) = false := by
  have hall : ∀ c : UInt8, isAlnum c = true → (toLower c == 32) = false := by decide +kernel
  exact hall c h

/-- A letter or digit shows, when there is room for it and for a blank before it. -/
theorem headlineFrom_word (b : Bytes) (hb : ∃ c ∈ b, isAlnum c = true) (n : Nat) (sep : Bool)
    (hn : n + (if sep then 0 else 1) < 511) : ∃ d ∈ headlineFrom n sep b, (d == 32) = false := by
  induction b generalizing n sep with
  | nil =>
    obtain ⟨c, hc, -⟩ := hb
    cases hc
  | cons c b ih =>
    rw [headlineFrom, if_neg (by omega)]
    cases hc : isAlnum c with
    | true => exact ⟨toLower c, List.mem_cons_self .., toLower_ne_blank hc⟩
    | false =>
      have hb : ∃ c ∈ b, isAlnum c = true := by
        obtain ⟨d, hd, hdc⟩ := hb
        rcases List.mem_cons.mp hd with rfl | hd
        · rw [hc] at hdc
          cases hdc
        · exact ⟨d, hd, hdc⟩
      cases sep with
      | true => exact ih hb n true hn
      | false =>
        obtain ⟨d, hd, hne⟩ := ih hb (n + 1) true hn
        exact ⟨d, List.mem_cons_of_mem _ hd, hne⟩

theorem rdropWhile_append_of_all {α : Type} (p : α → Bool) (x y : List α)
    (h : ∀ d ∈ y, p d = true) : (x ++ y).rdropWhile p = x.rdropWhile p := by
  induction y using List.reverseRecOn with
  | nil => rw [List.append_nil]
  | append_singleton y d ih =>
    rw [← List.append_assoc, List.rdropWhile_concat_pos _ _ _ (h d (by simp))]
    exact ih fun e he => h e (by simp [he])

theorem length_lt_rdropWhile_append {α : Type} (p : α → Bool) (x y : List α)
    (h : ∃ d ∈ y, p d = false) : x.length < ((x ++ y).rdropWhile p).length := by
  induction y using List.reverseRecOn with
  | nil =>
    obtain ⟨d, hd, -⟩ := h
    cases hd
  | append_singleton y d ih =>
    rw [← List.append_assoc]
    cases hd : p d with
    | true =>
      rw [List.rdropWhile_concat_pos _ _ _ hd]
      obtain ⟨e, he, hpe⟩ := h
      rcases List.mem_append.mp he with he | he
      · exact ih ⟨e, he, hpe⟩
      · rw [List.mem_singleton.mp he, hd] at hpe
        cases hpe
    | false =>
      rw [List.rdropWhile_concat_neg _ _ _ (by simp [hd])]
      simp

/-- A short headline keeps its words exactly when what is appended has none. -/
theorem headlineText_append_eq_iff (a b : Bytes) (ha : a.length ≤ 255) :
    headlineText (a ++ b) = headlineText a ↔ ∀ c ∈ b, isAlnum c = false := by
  obtain ⟨n, sep, hn, heq⟩ := headlineFrom_append a 0 true (by omega)
  unfold headlineText
  rw [heq b]
  constructor
  · intro h c hc
    by_contra hne
    have hlt := length_lt_rdropWhile_append (· == 32) (headlineFrom 0 true a) _
      (headlineFrom_word b ⟨c, hc, by simpa using hne⟩ n sep (by split <;> omega))
    rw [h] at hlt
    have hle := (List.rdropWhile_prefix (· == 32) (headlineFrom 0 true a)).length_le
    omega
  · intro h
    exact rdropWhile_append_of_all _ _ _ (headlineFrom_plain b h n sep)

end Text

namespace Parsers

/-- No letter or digit of a headline stands after the place where the event cuts it. -/
def CutPlain (b : Bytes) : Prop := ∀ c ∈ b.drop (FixedStr.cut b 255), isAlnum c = false

instance (b : Bytes) : Decidable (CutPlain b) := inferInstanceAs (Decidable (∀ c ∈ _, _))

/-- Two different texts of one hash: a headline and what the event keeps of it. -/
def Collides (b : Bytes) : Prop :=
  Text.headlineText b ≠ Text.headlineText (b.take (FixedStr.cut b 255)) ∧
    hashBytes (Text.headlineText b) = hashBytes (Text.headlineText (b.take (FixedStr.cut b 255)))

theorem headlineText_cut_iff (b : Bytes) :
    Text.headlineText b = Text.headlineText (b.take (FixedStr.cut b 255)) ↔ CutPlain b := by
  have hle := FixedStr.cut_le b 255
  have h := Text.headlineText_append_eq_iff (b.take (FixedStr.cut b 255))
    (b.drop (FixedStr.cut b 255)) (by rw [List.length_take]; omega)
  rwa [List.take_append_drop] at h

/-- The key of a headline is that of the title it is cut to. -/
theorem headlineKey_cut_iff (b : Bytes) :
    Text.headlineKey b = Text.headlineKey (b.take (FixedStr.cut b 255)) ↔
      CutPlain b ∨ Collides b := by
  rw [Text.headlineKey_eq, Text.headlineKey_eq, ← headlineText_cut_iff b]
  constructor
  · intro h
    rcases eq_or_ne (Text.headlineText b) (Text.headlineText (b.take (FixedStr.cut b 255))) with he | hne
    · exact .inl he
    · exact .inr ⟨hne, h⟩
  · rintro (he | ⟨-, h⟩)
    · rw [he]
    · exact h

theorem cutPlain_of_length_le {b : Bytes} (h : b.length ≤ 255) : CutPlain b := by
  have hcut : FixedStr.cut b 255 = b.length := if_pos h
  intro c hc
  rw [hcut, List.drop_length] at hc
  cases hc

/-! ## Events -/

section

variable {F : Type}

/-- The event's title and key are those of a headline. -/
def Titled (b : Bytes) (ev : NewsEvent F) : Prop :=
  ev.title.bytes = b.take (FixedStr.cut b 255) ∧ ev.titleKey = Text.headlineKey b

theorem Titled.key_iff {b : Bytes} {ev : NewsEvent F} (h : Titled b ev) :
    ev.titleKey = Text.headlineKey ev.title.bytes ↔ CutPlain b ∨ Collides b := by
  rw [h.1, h.2]
  exact headlineKey_cut_iff b

theorem Titled.addTicker {b : Bytes} {ev : NewsEvent F} (h : Titled b ev) (id : UInt32) :
    Titled b (addTicker ev id) := by
  unfold Parsers.addTicker
  split
  · exact h
  · exact h

theorem Titled.addUnresolved {b : Bytes} {ev : NewsEvent F} (h : Titled b ev) (raw : CStr 16) :
    Titled b (addUnresolved ev raw) := by
  unfold Parsers.addUnresolved
  split
  · exact h
  · exact h

theorem Titled.foldl {α : Type} {b : Bytes} {f : NewsEvent F → α → NewsEvent F}
    (hf : ∀ ev x, Titled b ev → Titled b (f ev x)) (xs : List α) {ev : NewsEvent F}
    (h : Titled b ev) : Titled b (xs.foldl f ev) :=
  List.foldlRecOn xs f h fun ev h x _ => hf ev x h

theorem Titled.addTickersFromHits {b : Bytes} {ev : NewsEvent F} (h : Titled b ev)
    (hits : List TickerHit) : Titled b (addTickersFromHits ev hits) := by
  refine Titled.foldl (fun ev hit h => ?_) hits h
  split
  · split
    · exact h
    · exact h.addTicker _
  · exact h.addUnresolved _

variable (l : Lookups F)

theorem titled_extract {b : Bytes} {ev : NewsEvent F} (h : Titled b ev) (texts : List Bytes) :
    Titled b (texts.foldl (fun ev t => addTickersFromHits ev (l.extractTickers t)) ev) :=
  Titled.foldl (fun _ _ h => h.addTickersFromHits _) texts h

theorem titled_fillRss {item : Bytes} {ev ev' : NewsEvent F} (h : fillRss l item ev = some ev') :
    Titled (rssHeadline item) ev' := by
  simp only [fillRss] at h
  split at h
  · cases h
  · generalize he : List.foldl (fun ev t => addTickersFromHits ev (l.extractTickers t)) _ _ = ev₁ at h
    have h₁ : Titled (rssHeadline item) ev₁ := by
      rw [← he]
      exact titled_extract l ⟨rfl, rfl⟩ _
    split at h
    · split at h
      · obtain rfl := Option.some.inj h
        exact h₁.addTicker _
      · obtain rfl := Option.some.inj h
        exact h₁
    · obtain rfl := Option.some.inj h
      exact h₁

/-- The headline of an entry of the EDGAR feed. -/
def edgarHeadlineOf (entry : Bytes) : Bytes :=
  match parseEdgarTitle (textOf (Xml.childText entry (lit "title")) 512) with
  | some t => edgarHeadline t (parse8kItems (textOf (Xml.childText entry (lit "summary")) 4096))
  | none => []

theorem titled_fillEdgar {entry : Bytes} {ev ev' : NewsEvent F}
    (h : fillEdgar l entry ev = some ev') : Titled (edgarHeadlineOf entry) ev' := by
  simp only [fillEdgar] at h
  unfold edgarHeadlineOf
  cases ht : parseEdgarTitle (textOf (Xml.childText entry (lit "title")) 512) with
  | none =>
    rw [ht] at h
    cases h
  | some t =>
    rw [ht] at h
    obtain rfl := Option.some.inj h
    show Titled (edgarHeadline t (parse8kItems (textOf (Xml.childText entry (lit "summary")) 4096))) _
    refine Titled.foldl (fun ev id h => ?_) _ ?_
    · split
      · exact h
      · exact h.addTicker _
    · split
      · exact Titled.addTicker ⟨rfl, rfl⟩ _
      · exact ⟨rfl, rfl⟩

variable [Dbl F]

/-- The headline of a halt fits. -/
theorem key_fillHalt {item : Bytes} {ev ev' : NewsEvent F} (h : fillHalt l item ev = some ev') :
    ev'.titleKey = Text.headlineKey ev'.title.bytes := by
  simp only [fillHalt] at h
  split at h
  · cases h
  · obtain rfl := Option.some.inj h
    refine (Titled.key_iff ⟨rfl, rfl⟩).mpr (.inl (cutPlain_of_length_le ?_))
    exact List.length_take_le ..

/-- The headline that a feed's parser puts together, none for halts. -/
def headlineOf : FeedKind → Bytes → Bytes
  | .rss, item => rssHeadline item
  | .edgarAtom, entry => edgarHeadlineOf entry
  | .nasdaqHalts, _ => []

theorem key_fillEvent_iff {kind : FeedKind} {item : Bytes} {ev ev' : NewsEvent F}
    (h : fillEvent l kind item ev = some ev') :
    ev'.titleKey = Text.headlineKey ev'.title.bytes ↔
      CutPlain (headlineOf kind item) ∨ Collides (headlineOf kind item) := by
  cases kind with
  | rss => exact (titled_fillRss l h).key_iff
  | edgarAtom => exact (titled_fillEdgar l h).key_iff
  | nasdaqHalts =>
    have hplain : CutPlain (headlineOf .nasdaqHalts item) := cutPlain_of_length_le (Nat.zero_le _)
    exact iff_of_true (key_fillHalt l h) (.inl hplain)

end

end Parsers

namespace Research

open Parsers

section

variable {F : Type} [Dbl F]

/-- The loader takes the key of the title that the journal has. -/
theorem titleKey_newsNode (j : Journal F) (r : NewsRecord F) (source : UInt16) :
    (eventOf j.symbols source (newsNode j r)).titleKey = Text.headlineKey r.news.title.bytes := by
  have htitle := fixedStr_newsNode (j := j) (r := r) (k := lit "title") (get_newsNode (i := 9) rfl)
    (by decide)
  generalize newsNode j r = n at htitle ⊢
  show Text.headlineKey (FixedStr.assign (by decide) (Json.str (Json.get n (lit "title")))).bytes = _
  rw [htitle]

/-- A feed's event has the key of its title, and so the one its replay gets, exactly when the
parser's headline loses no word to the cut (or the hash hides the loss); an exhibit's event always
has it. Events with the keys of their titles are told apart live as they are in a replay. -/
theorem live_key_iff_replayed (l : Lookups F) (j : Journal F) :
    (∀ kind item ev ev', fillEvent l kind item ev = some ev' →
      (ev'.titleKey = Text.headlineKey ev'.title.bytes ↔
        CutPlain (headlineOf kind item) ∨ Collides (headlineOf kind item))) ∧
    (∀ html docUrl, ∀ filing : NewsEvent F, (fillExhibitEvent html filing docUrl).titleKey =
      Text.headlineKey (fillExhibitEvent html filing docUrl).title.bytes) ∧
    (∀ r source, (eventOf j.symbols source (newsNode j r)).titleKey = r.news.titleKey ↔
      r.news.titleKey = Text.headlineKey r.news.title.bytes) ∧
    ∀ r₁ r₂ s₁ s₂, r₁.news.titleKey = Text.headlineKey r₁.news.title.bytes →
      r₂.news.titleKey = Text.headlineKey r₂.news.title.bytes →
      (r₁.news.titleKey = r₂.news.titleKey ↔
        (eventOf j.symbols s₁ (newsNode j r₁)).titleKey =
          (eventOf j.symbols s₂ (newsNode j r₂)).titleKey) := by
  refine ⟨fun kind item ev ev' h => key_fillEvent_iff l h, fun html docUrl filing => rfl, ?_, ?_⟩
  · intro r source
    rw [titleKey_newsNode]
    exact eq_comm
  · intro r₁ r₂ s₁ s₂ h₁ h₂
    rw [titleKey_newsNode, titleKey_newsNode, h₁, h₂]

end

section Example

/-- Lookups that find nothing, as there is nothing to find in the items below. -/
def noLookups : Lookups ℚ :=
  { symbols := acmeSymbols
    extractTickers := fun _ => []
    resolveByCompanyName := fun _ _ => SymbolTable.kInvalid
    byCik := fun _ => []
    primaryForCik := fun _ => SymbolTable.kInvalid
    parseAnyDatetime := fun _ => none
    parseIso8601 := fun _ => none
    parseEasternMdyTime := fun _ _ => none }

def blank : NewsEvent ℚ :=
  { idHash := 0, titleKey := 0, recvNs := 0, sentNs := 0, publishedNs := 0, parsedNs := 0, cik := 0,
    itemsMask := 0, source := 0, kind := .news, flags := 0, tickers := [], unresolved := [],
    form := .empty pos_16, halt := noHalt, title := .empty pos_256,
    link := .empty pos_320, body := .empty pos_3072, tickers_le := no_tickers_le,
    unresolved_le := no_unresolved_le }

/-- An item with a title of `n` letters and a last one. -/
def longItem (n : Nat) (last : Char) : Bytes :=
  lit "<title>" ++ List.replicate n (ch 'a') ++ [ch last] ++ lit "</title>"

theorem childText_only {text : Bytes} (h : Xml.NoTag text) :
    Xml.childText (lit "<title>" ++ text ++ lit "</title>") (lit "title") = text := by
  let e := Xml.bare (lit "title") (some text) (Xml.tagName_of (by decide) (by decide))
  have hrender : lit "<title>" ++ text ++ lit "</title>" = e.render := by
    rw [show lit "<title>" = ch '<' :: (lit "title" ++ [ch '>']) by decide,
      show lit "</title>" = ch '<' :: ch '/' :: (lit "title" ++ [ch '>']) by decide]
    simp [e, Xml.bare, Xml.Elem.render, Xml.Elem.closing]
  have hnext := Xml.nextElement_render e
    (show (lit "<title>" ++ text ++ lit "</title>").drop 0 = [] ++ (e.render ++ []) by
      rw [hrender, List.append_nil]
      rfl)
    (Lib.FirstMatch.free_nil _) fun b hb => by
      cases hb
      exact .last (h.plain _)
  rw [Xml.childText, show lit "title" = e.name from rfl, hnext]
  rfl

/-- What of the item the parser's steps give, for two letters. -/
theorem rssHeadline_longItem (c : Char) (hc : c = 'b' ∨ c = 'c') :
    rssHeadline (longItem 255 c) = List.replicate 255 (ch 'a') ++ [ch c] := by
  have htext : Xml.NoTag (List.replicate 255 (ch 'a') ++ [ch c]) := by
    refine Xml.NoTag.append (fun d hd => ?_) fun d hd => ?_
    · rw [List.eq_of_mem_replicate hd]
      decide
    · rw [List.mem_singleton.mp hd]
      rcases hc with rfl | rfl <;> decide
  have hchild : Xml.childText (longItem 255 c) (lit "title") =
      List.replicate 255 (ch 'a') ++ [ch c] := by
    rw [longItem, List.append_assoc (lit "<title>")]
    exact childText_only htext
  have hraw : Xml.unwrapCdata (List.replicate 255 (ch 'a') ++ [ch c]) =
      (List.replicate 255 (ch 'a') ++ [ch c], false) := by
    rcases hc with rfl | rfl <;> decide +kernel
  have hdecoded : Text.decodedEntities (List.replicate 255 (ch 'a') ++ [ch c]) =
      List.replicate 255 (ch 'a') ++ [ch c] := by
    rcases hc with rfl | rfl <;> decide +kernel
  rw [rssHeadline, textOf, hchild, hraw]
  simp only [hdecoded]
  rcases hc with rfl | rfl <;> decide +kernel

/-- Two headlines that differ in their 256th byte: live their keys differ, replayed
they are one. -/
theorem long_titles_merge :
    ∃ e₁ e₂, fillEvent noLookups .rss (longItem 255 'b') blank = some e₁ ∧
      fillEvent noLookups .rss (longItem 255 'c') blank = some e₂ ∧
      e₁.titleKey ≠ Text.headlineKey e₁.title.bytes ∧
      e₁.titleKey ≠ e₂.titleKey ∧
      Text.headlineKey e₁.title.bytes = Text.headlineKey e₂.title.bytes := by
  have hb := rssHeadline_longItem 'b' (.inl rfl)
  have hc := rssHeadline_longItem 'c' (.inr rfl)
  have hnb : rssHeadline (longItem 255 'b') ≠ [] := by
    rw [hb]
    exact List.append_ne_nil_of_right_ne_nil _ (by decide)
  have hnc : rssHeadline (longItem 255 'c') ≠ [] := by
    rw [hc]
    exact List.append_ne_nil_of_right_ne_nil _ (by decide)
  obtain ⟨e₁, h₁⟩ := Option.isSome_iff_exists.mp (fillRss_isSome noLookups _ hnb blank)
  obtain ⟨e₂, h₂⟩ := Option.isSome_iff_exists.mp (fillRss_isSome noLookups _ hnc blank)
  obtain ⟨ht₁, hk₁⟩ := titled_fillRss noLookups h₁
  obtain ⟨ht₂, hk₂⟩ := titled_fillRss noLookups h₂
  rw [hb] at ht₁ hk₁
  rw [hc] at ht₂ hk₂
  refine ⟨e₁, e₂, h₁, h₂, ?_, ?_, ?_⟩
  · rw [hk₁, ht₁]
    decide +kernel
  · rw [hk₁, hk₂]
    decide +kernel
  · rw [ht₁, ht₂]
    decide +kernel

/-- A title that fits. -/
theorem live_key_iff_replayed_short :
    ∃ ev', fillEvent noLookups .rss (longItem 3 'b') blank = some ev' ∧
      ev'.titleKey = Text.headlineKey ev'.title.bytes := by
  have h : (fillEvent noLookups .rss (longItem 3 'b') blank).isSome = true := by decide +kernel
  obtain ⟨ev', h⟩ := Option.isSome_iff_exists.mp h
  refine ⟨ev', h, ((live_key_iff_replayed noLookups ⟨acmeSymbols, none, []⟩).1 _ _ _ _ h).mpr ?_⟩
  exact .inl (by decide +kernel)

end Example

end Research

end Stok
