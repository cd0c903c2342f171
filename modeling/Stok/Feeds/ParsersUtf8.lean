import Stok.Feeds.Parsers
import Stok.Util.HtmlUtf8

/-!
# UTF-8 in what the parsers store

The titles and bodies of events come out of a feed item or a page through cuts at ASCII, the
decoder of entities, `html_to_text` and the copy into an inline string. Only the second and the
third can break UTF-8, and the cut of an exhibit's headline, which counts bytes.
-/

namespace Stok

open Lib.SelfSync

/-! ## Parts of a feed -/

/-- A literal of ASCII characters, which are checked one by one. -/
theorem lit_ascii {cs : List Char} (h : cs.all (fun c => decide ((ch c).toNat < 0x80)) = true) :
    ∀ c ∈ lit (String.ofList cs), c.toNat < 0x80 := by
  intro c hc
  rw [lit_ofList] at hc
  obtain ⟨x, hx, rfl⟩ := List.mem_map.mp hc
  exact of_decide_eq_true (List.all_eq_true.mp h x hx)

theorem boundary_iff (s : Bytes) (n : Nat) :
    (∀ c, s[n]? = some c → utf8Code.cont c = false) ↔ isCont (byteAt s n) = false := by
  refine ⟨fun h => ?_, getElem?_isCont⟩
  rw [byteAt, List.getD_eq_getElem?_getD]
  cases hs : s[n]? with
  | none => rfl
  | some c => exact h c hs

namespace Xml

theorem findClose_byte {doc name : Bytes} {start close : Nat} (h : findClose doc name start = some close) :
    byteAt doc close = ch '<' := by
  obtain ⟨p, hp, rfl⟩ := Option.map_eq_some_iff.mp h
  have hok := List.find?_some hp
  simp only [Bool.and_eq_true, beq_iff_eq] at hok
  exact hok.2.1.1.1

theorem closeFrom_byte {doc name : Bytes} {fuel pos close : Nat}
    (h : closeFrom doc name fuel pos = some close) : byteAt doc close = ch '<' := by
  induction fuel generalizing pos with
  | zero => cases h
  | succ fuel ih =>
    simp only [closeFrom] at h
    split at h
    · cases h
    · rename_i hclose
      split at h
      · obtain rfl := Option.some.inj h
        exact findClose_byte hclose
      · split at h
        · cases h
        · exact ih h

theorem text_nextElement {doc name : Bytes} {start : Nat} {e : Element}
    (h : nextElement doc name start = some e) (hdoc : utf8Code.Text doc) : utf8Code.Text e.inner := by
  simp only [nextElement, Option.bind_eq_bind, Option.bind_eq_some_iff] at h
  obtain ⟨lt, -, gt, hgt, h⟩ := h
  split at h
  · obtain rfl := Option.some.inj h
    exact .nil
  · simp only [Option.bind_eq_some_iff] at h
    obtain ⟨close, hclose, h⟩ := h
    obtain rfl := Option.some.inj h
    have hrest := (Text.afterAscii_find (q := []) (x := ch '>') (by decide) hgt).text hdoc
    rcases Nat.lt_or_ge gt close with hlt | hle
    · refine (Code.text_take_iff hrest _).mpr ?_
      -- the content ends at a `<`
      rw [boundary_iff, byteAt_drop, List.nil_append, List.length_singleton,
        show gt + 1 + (close - gt - 1) = close by omega, closeFrom_byte hclose]
      decide
    · dsimp only
      rw [show close - gt - 1 = 0 by omega, List.take_zero]
      exact .nil

theorem text_childText {doc : Bytes} (name : Bytes) (hdoc : utf8Code.Text doc) :
    utf8Code.Text (childText doc name) := by
  unfold childText
  split
  · exact text_nextElement ‹_› hdoc
  · exact .nil

theorem text_unwrapCdata {raw : Bytes} (h : utf8Code.Text raw) : utf8Code.Text (unwrapCdata raw).1 := by
  have ht := (text_trim_iff raw).mpr h
  unfold unwrapCdata
  dsimp only
  generalize trim raw = t at ht
  split
  · rename_i hc
    obtain ⟨hlen, hopen, hclose, -⟩ := hc
    -- the section is its content between its brackets
    have hbody : t.drop 9 = (t.drop 9).take (t.length - 12) ++ lit "]]>" := by
      rw [← hclose, ← List.take_append_drop (t.length - 12) (t.drop 9), List.drop_drop,
        List.take_append_of_le_length (by rw [List.length_take, List.length_drop]; omega),
        List.take_take, Nat.min_self, show 9 + (t.length - 12) = t.length - 3 by omega]
    have hsplit : t = lit "<![CDATA[" ++ ((t.drop 9).take (t.length - 12) ++ lit "]]>") := by
      rw [← hbody, ← hopen, List.take_append_drop]
    rw [hsplit] at ht
    have hascii : (∀ c ∈ lit "<![CDATA[", c.toNat < 0x80) ∧ ∀ c ∈ lit "]]>", c.toNat < 0x80 := by
      refine ⟨lit_ascii ?_, lit_ascii ?_⟩ <;> decide
    exact (text_append_all_ascii hascii.2).mp ((text_all_ascii hascii.1).right ht)
  · exact h

end Xml

/-! ## Entities -/

namespace Text

/-- What the references of a text are decoded to. -/
def referencesFrom : Nat → Bytes → List Bytes
  | 0, _ => []
  | _ + 1, [] => []
  | fuel + 1, c :: s =>
    if c = ch '&' then
      match decodeOne (c :: s) with
      | some (t, rest) => t :: referencesFrom fuel rest
      | none => referencesFrom fuel s
    else referencesFrom fuel s

def references (s : Bytes) : List Bytes := referencesFrom s.length s

/-- `p` begins a character that `s` ends. -/
theorem text_decodedEntitiesFrom {fuel : Nat} {p s : Bytes} (hfuel : s.length ≤ fuel)
    (h : utf8Code.Text (p ++ s)) (hrefs : ∀ t ∈ referencesFrom fuel s, surrogate t = false) :
    utf8Code.Text (p ++ decodedEntitiesFrom fuel s) := by
  induction fuel generalizing p s with
  | zero =>
    obtain rfl := List.length_eq_zero_iff.mp (Nat.le_zero.mp hfuel)
    exact h
  | succ fuel ih =>
    cases s with
    | nil => exact h
    | cons c s =>
      have hs : s.length ≤ fuel := Nat.le_of_succ_le_succ hfuel
      have hbyte (hr : ∀ t ∈ referencesFrom fuel s, surrogate t = false) :
          utf8Code.Text (p ++ c :: decodedEntitiesFrom fuel s) := by
        have := ih (p := p ++ [c]) hs (by rwa [List.append_assoc]) hr
        rwa [List.append_assoc] at this
      simp only [decodedEntitiesFrom, referencesFrom] at hrefs ⊢
      split
      · rename_i hc
        rw [if_pos hc] at hrefs
        have hascii : c.toNat < 0x80 := by
          rw [hc]
          decide
        obtain ⟨hp, hrest⟩ := (text_append_ascii hascii).mp h
        cases hdec : decodeOne (c :: s) with
        | none =>
          rw [hdec] at hrefs
          exact hbyte hrefs
        | some d =>
          obtain ⟨t, rest⟩ := d
          rw [hdec] at hrefs
          obtain ⟨ht, htail⟩ := List.forall_mem_cons.mp hrefs
          obtain ⟨⟨cp, hcp, rfl⟩, hafter⟩ := decodeOne_spec hdec
          have hw := (text_utf8_iff hcp).mpr ht
          have hgo := ih (p := []) (hafter.length_le.trans hs)
            (hafter.text ((text_ascii hascii).append hrest)) htail
          exact hp.append (hw.append hgo)
      · rename_i hc
        rw [if_neg hc] at hrefs
        exact hbyte hrefs

theorem text_decodedEntities {s : Bytes} (h : utf8Code.Text s)
    (hrefs : ∀ t ∈ references s, surrogate t = false) : utf8Code.Text (decodedEntities s) :=
  text_decodedEntitiesFrom (p := []) le_rfl h hrefs

end Text

namespace Parsers

/-! ## Texts of a feed -/

/-- No surrogate is decoded in a raw text, and its rounds are clean. -/
def TextClean (raw : Bytes) (maxOut : Nat) : Prop :=
  match Xml.unwrapCdata raw with
  | (v, true) => Text.HtmlClean v [] maxOut 32
  | (v, false) =>
    (∀ t ∈ Text.references v, Text.surrogate t = false) ∧
      Text.HtmlClean (Text.decodedEntities v) [] maxOut 32

instance (raw : Bytes) (maxOut : Nat) : Decidable (TextClean raw maxOut) := by
  unfold TextClean
  exact match Xml.unwrapCdata raw with
    | (_, true) => inferInstance
    | (_, false) => inferInstance

theorem text_textOf {raw : Bytes} {maxOut : Nat} (h : utf8Code.Text raw) (hclean : TextClean raw maxOut) :
    utf8Code.Text (textOf raw maxOut) := by
  have hraw := Xml.text_unwrapCdata h
  unfold TextClean at hclean
  unfold textOf
  generalize Xml.unwrapCdata raw = u at hraw hclean
  obtain ⟨v, b⟩ := u
  cases b with
  | true => exact (Text.text_htmlToText_iff (by decide) hraw .nil maxOut).mpr hclean
  | false =>
    have hdec := Text.text_decodedEntities hraw hclean.1
    exact (Text.text_htmlToText_iff (by decide) hdec .nil maxOut).mpr hclean.2

theorem text_rssBody {item : Bytes} (h : utf8Code.Text item) : utf8Code.Text (rssBody item) := by
  have hall : ∀ r ∈ (["description", "content:encoded", "summary", "content"].map lit).map
      (Xml.childText item), utf8Code.Text r := by
    intro r hr
    obtain ⟨tag, -, rfl⟩ := List.mem_map.mp hr
    exact Xml.text_childText tag h
  unfold rssBody
  dsimp only
  generalize (["description", "content:encoded", "summary", "content"].map lit).map
    (Xml.childText item) = raws at hall
  cases hf : raws.find? fun r => !(trim r).isEmpty with
  | some r => exact hall r (List.mem_of_find?_eq_some hf)
  | none =>
    rw [Option.getD_none, List.getLastD_eq_getLast?]
    cases hl : raws.getLast? with
    | none => exact .nil
    | some r => exact hall r (List.mem_of_getLast? hl)

/-! ## EDGAR titles -/

theorem edgarCik_parts {form rest : Bytes} {fuel search : Nat} {t : EdgarTitle}
    (h : edgarCik form rest fuel search = some t) :
    t.form = form ∧ ∃ lp start, find [ch '('] rest start = some lp ∧ t.company = trim (rest.take lp) := by
  induction fuel generalizing search with
  | zero => cases h
  | succ fuel ih =>
    simp only [edgarCik, Option.bind_eq_bind, Option.bind_eq_some_iff] at h
    obtain ⟨lp, hlp, rp, -, h⟩ := h
    split at h
    · split at h
      · obtain rfl := Option.some.inj h
        exact ⟨rfl, lp, search, hlp, rfl⟩
      · cases h
    · exact ih h

theorem text_parseEdgarTitle {title : Bytes} {t : EdgarTitle} (h : parseEdgarTitle title = some t)
    (htitle : utf8Code.Text title) : utf8Code.Text t.form ∧ utf8Code.Text t.company := by
  have htrim := (text_trim_iff title).mpr htitle
  simp only [parseEdgarTitle, Option.bind_eq_bind, Option.bind_eq_some_iff] at h
  obtain ⟨dash, hdash, h⟩ := h
  obtain ⟨hform, lp, start, hlp, hcompany⟩ := edgarCik_parts h
  have hfront := Text.text_take_find (q := lit "- ") (x := 32) (by decide) hdash htrim
  have hrest := (Text.afterAscii_find (q := lit " -") (x := 32) (by decide) hdash).text htrim
  rw [hform, hcompany, text_trim_iff, text_trim_iff]
  exact ⟨hfront, Text.text_take_find (q := []) (x := ch '(') (by decide) hlp hrest⟩

theorem itemTitles_ascii {mask : UInt32} {t : Bytes} (h : t ∈ itemTitles mask) :
    ∀ c ∈ t, c.toNat < 0x80 := by
  have hall : ∀ t ∈ form8kItemTitles, ∀ c ∈ t, c.toNat < 0x80 := by
    simp only [form8kItemTitles, List.map_cons, List.map_nil, List.forall_mem_cons]
    repeat
      refine And.intro (lit_ascii ?_) ?_
      · decide
    exact List.forall_mem_nil _
  obtain ⟨x, hx, rfl⟩ := List.mem_map.mp h
  exact hall x.1 (List.fst_mem_of_mem_zipIdx (List.mem_of_mem_filter hx))

theorem text_edgarHeadline {t : EdgarTitle} (hform : utf8Code.Text t.form)
    (hcompany : utf8Code.Text t.company) (mask : UInt32) : utf8Code.Text (edgarHeadline t mask) := by
  have hitems : ∀ x ∈ itemTitles mask, utf8Code.Text x := fun x hx =>
    text_all_ascii (itemTitles_ascii hx)
  have hcolon : ∀ c ∈ lit ": ", c.toNat < 0x80 := by
    refine lit_ascii ?_
    decide
  have hsemicolon : ∀ c ∈ lit "; ", c.toNat < 0x80 := by
    refine lit_ascii ?_
    decide
  unfold edgarHeadline
  rw [List.append_assoc, List.cons_append]
  refine (text_append_ascii (c := ch ' ') (by decide)).mpr ⟨hform, hcompany.append ?_⟩
  generalize itemTitles mask = xs at hitems
  cases xs with
  | nil => exact .nil
  | cons x xs =>
    obtain ⟨hx, hxs⟩ := List.forall_mem_cons.mp hitems
    refine ((text_all_ascii hcolon).append hx).append ?_
    induction xs with
    | nil => exact .nil
    | cons y ys ih =>
      obtain ⟨hy, hys⟩ := List.forall_mem_cons.mp hxs
      rw [List.flatMap_cons]
      exact ((text_all_ascii hsemicolon).append hy).append (ih (List.forall_mem_cons.mpr ⟨hx, hys⟩) hys)

/-! ## What is stored -/

section Stored

variable {F : Type}

/-- The texts of an event. -/
def Stored (title : FixedStr 256) (body : FixedStr 3072) (ev : NewsEvent F) : Prop :=
  ev.title = title ∧ ev.body = body

variable {title : FixedStr 256} {body : FixedStr 3072} {ev ev' : NewsEvent F}

theorem Stored.addTicker (h : Stored title body ev) (id : UInt32) : Stored title body (addTicker ev id) := by
  unfold Parsers.addTicker
  split
  · exact h
  · exact h

theorem Stored.addUnresolved (h : Stored title body ev) (raw : CStr 16) :
    Stored title body (addUnresolved ev raw) := by
  unfold Parsers.addUnresolved
  split
  · exact h
  · exact h

theorem Stored.addTickersFromHits (h : Stored title body ev) (hits : List TickerHit) :
    Stored title body (addTickersFromHits ev hits) := by
  refine List.foldlRecOn hits _ h fun ev h hit _ => ?_
  split
  · split
    · exact h
    · exact h.addTicker _
  · exact h.addUnresolved _

variable (l : Lookups F)

theorem stored_fillRss {item : Bytes} (h : fillRss l item ev = some ev') :
    Stored (.assign (by decide) (rssHeadline item)) (.assign (by decide) (textOf (rssBody item) (3071 + 512)))
      ev' := by
  simp only [fillRss] at h
  split at h
  · cases h
  · generalize he : List.foldl (fun ev t => addTickersFromHits ev (l.extractTickers t)) _ _ = ev₁ at h
    have h₁ : Stored (.assign (by decide) (rssHeadline item))
        (.assign (by decide) (textOf (rssBody item) (3071 + 512))) ev₁ := by
      rw [← he]
      exact List.foldlRecOn _ _ ⟨rfl, rfl⟩ fun ev h t _ => h.addTickersFromHits _
    split at h
    · split at h
      · obtain rfl := Option.some.inj h
        exact h₁.addTicker _
      · obtain rfl := Option.some.inj h
        exact h₁
    · obtain rfl := Option.some.inj h
      exact h₁

theorem stored_fillEdgar {entry : Bytes} (h : fillEdgar l entry ev = some ev') :
    ∃ t, parseEdgarTitle (textOf (Xml.childText entry (lit "title")) 512) = some t ∧
      let text := textOf (Xml.childText entry (lit "summary")) 4096
      Stored (.assign (by decide) (edgarHeadline t (parse8kItems text))) (.assign (by decide) text) ev' := by
  simp only [fillEdgar] at h
  cases ht : parseEdgarTitle (textOf (Xml.childText entry (lit "title")) 512) with
  | none =>
    rw [ht] at h
    cases h
  | some t =>
    rw [ht] at h
    obtain rfl := Option.some.inj h
    refine ⟨t, rfl, ?_⟩
    dsimp only
    refine List.foldlRecOn (motive := Stored _ _) _ _ ?_ fun ev h id _ => ?_
    · split
      · exact Stored.addTicker ⟨rfl, rfl⟩ _
      · exact ⟨rfl, rfl⟩
    · split
      · exact h
      · exact h.addTicker _

theorem text_fillRss {item : Bytes} (hitem : utf8Code.Text item)
    (htitle : TextClean (Xml.childText item (lit "title")) 1024)
    (hbody : TextClean (rssBody item) (3071 + 512)) (h : fillRss l item ev = some ev') :
    utf8Code.Text ev'.title.bytes ∧ utf8Code.Text ev'.body.bytes := by
  obtain ⟨ht, hb⟩ := stored_fillRss l h
  rw [ht, hb]
  exact ⟨text_assign _ (text_textOf (Xml.text_childText _ hitem) htitle),
    text_assign _ (text_textOf (text_rssBody hitem) hbody)⟩

theorem text_fillEdgar {entry : Bytes} (hentry : utf8Code.Text entry)
    (htitle : TextClean (Xml.childText entry (lit "title")) 512)
    (hbody : TextClean (Xml.childText entry (lit "summary")) 4096) (h : fillEdgar l entry ev = some ev') :
    utf8Code.Text ev'.title.bytes ∧ utf8Code.Text ev'.body.bytes := by
  obtain ⟨t, hparse, ht, hb⟩ := stored_fillEdgar l h
  obtain ⟨hform, hcompany⟩ := text_parseEdgarTitle hparse (text_textOf (Xml.text_childText _ hentry) htitle)
  rw [ht, hb]
  exact ⟨text_assign _ (text_edgarHeadline hform hcompany _),
    text_assign _ (text_textOf (Xml.text_childText _ hentry) hbody)⟩

end Stored

/-! ## Exhibits -/

theorem text_chopCr {s : Bytes} (h : utf8Code.Text s) : utf8Code.Text (chopCr s) := by
  unfold chopCr
  split
  · rename_i hcr
    rw [← List.dropLast_append_getLast? 13 hcr] at h
    exact ((text_append_ascii (by decide)).mp h).1
  · exact h

theorem text_linesFrom (cur : Bytes) {s : Bytes} (h : utf8Code.Text (cur.reverse ++ s)) :
    ∀ t ∈ linesFrom cur s, utf8Code.Text t := by
  induction s generalizing cur with
  | nil =>
    cases cur with
    | nil => exact nofun
    | cons c cur =>
      intro t ht
      rw [List.mem_singleton.mp ht]
      exact text_chopCr (by rwa [List.append_nil] at h)
  | cons c s ih =>
    intro t ht
    rw [linesFrom] at ht
    split at ht
    · rename_i hc
      obtain ⟨hcur, hs⟩ := (text_append_ascii (by rw [hc]; decide)).mp h
      rcases List.mem_cons.mp ht with rfl | ht
      · exact text_chopCr hcur
      · exact ih [] hs t ht
    · refine ih (c :: cur) ?_ t ht
      rwa [List.reverse_cons, List.append_assoc]

/-- The line that is the headline of an exhibit, and where it is cut. -/
def headlineCut (text : Bytes) : Bytes × Nat :=
  match ((lines text).map trim).find? fun t => 15 ≤ t.length ∧ isBoilerplate t = false with
  | some t => (t, 250)
  | none => (text, 200)

/-- The headline's cut is not inside a character. -/
def CutClean (text : Bytes) : Prop := isCont (byteAt (headlineCut text).1 (headlineCut text).2) = false

instance (text : Bytes) : Decidable (CutClean text) := inferInstanceAs (Decidable (_ = _))

theorem length_trim_le (s : Bytes) : (trim s).length ≤ s.length := by
  rw [trim, List.length_reverse]
  refine (List.dropWhile_sublist _).length_le.trans ?_
  rw [List.length_reverse]
  exact (List.dropWhile_sublist _).length_le

theorem exhibitHeadline_length (text : Bytes) : (exhibitHeadline text).length ≤ 250 := by
  unfold exhibitHeadline
  split
  · rw [List.length_take]
    omega
  · refine (length_trim_le _).trans ?_
    rw [List.length_take]
    omega

theorem text_exhibitHeadline_iff {text : Bytes} (h : utf8Code.Text text) :
    utf8Code.Text (exhibitHeadline text) ↔ CutClean text := by
  unfold exhibitHeadline CutClean headlineCut
  cases hfind : ((lines text).map trim).find? fun t => 15 ≤ t.length ∧ isBoilerplate t = false with
  | some t =>
    obtain ⟨line, hline, rfl⟩ := List.mem_map.mp (List.mem_of_find?_eq_some hfind)
    have ht := (text_trim_iff line).mpr (text_linesFrom [] h line hline)
    rw [Code.text_take_iff ht, boundary_iff]
  | none => rw [text_trim_iff, Code.text_take_iff h, boundary_iff]

theorem text_map_newline {p s : Bytes} (h : utf8Code.Text (p ++ s)) :
    utf8Code.Text (p ++ s.map fun c => if c = 10 then 32 else c) := by
  induction s generalizing p with
  | nil => exact h
  | cons c s ih =>
    rw [List.map_cons]
    split
    · rename_i hc
      obtain ⟨hp, hs⟩ := (text_append_ascii (by rw [hc]; decide)).mp h
      exact (text_append_ascii (by decide)).mpr ⟨hp, ih (p := []) hs⟩
    · rw [List.append_cons]
      exact ih (by rwa [← List.append_cons])

section Exhibit

variable {F : Type} {html : Bytes}

theorem text_exhibit_title (hhtml : utf8Code.Text html)
    (hclean : Text.HtmlClean html [] (16 * 1024) 10) (filing : NewsEvent F) (docUrl : Bytes) :
    utf8Code.Text (fillExhibitEvent html filing docUrl).title.bytes ↔
      CutClean (Text.htmlToText html [] (16 * 1024) 10) := by
  have htext := (Text.text_htmlToText_iff (by decide) hhtml .nil _).mpr hclean
  rw [← text_exhibitHeadline_iff htext, fillExhibitEvent]
  generalize Text.htmlToText html [] (16 * 1024) 10 = text
  -- the inline string has room for all of the headline
  have hfits := FixedStr.assign_bytes (N := 256) (by decide)
    ⟨exhibitHeadline text, Nat.lt_of_le_of_lt (exhibitHeadline_length text) (by decide)⟩
  exact iff_of_eq (congrArg (fun f : FixedStr 256 => utf8Code.Text f.bytes) hfits)

theorem text_exhibit_body (hhtml : utf8Code.Text html)
    (hclean : Text.HtmlClean html [] (16 * 1024) 10) (filing : NewsEvent F) (docUrl : Bytes) :
    utf8Code.Text (fillExhibitEvent html filing docUrl).body.bytes := by
  have htext := (Text.text_htmlToText_iff (by decide) hhtml .nil _).mpr hclean
  exact text_assign (by decide) (text_map_newline (p := []) htext)

end Exhibit

end Parsers

open Parsers in
/-- `html_to_text` leaves UTF-8 exactly when its rounds are clean. What the parsers store is UTF-8
when the texts they read are clean, for an exhibit when the cut of its headline is, too. -/
theorem utf8_stored (html : Bytes) :
    (∀ (out : Bytes) (maxOut : Nat) (sep : UInt8), ValidUtf8 html → ValidUtf8 out → sep.toNat < 0x80 →
      (ValidUtf8 (Text.htmlToText html out maxOut sep) ↔ Text.HtmlClean html out maxOut sep)) ∧
    ∀ {F : Type} (l : Lookups F) (ev : NewsEvent F),
      (∀ item ev', ValidUtf8 item → TextClean (Xml.childText item (lit "title")) 1024 →
        TextClean (rssBody item) (3071 + 512) → fillRss l item ev = some ev' →
        ValidUtf8 ev'.title.bytes ∧ ValidUtf8 ev'.body.bytes) ∧
      (∀ entry ev', ValidUtf8 entry → TextClean (Xml.childText entry (lit "title")) 512 →
        TextClean (Xml.childText entry (lit "summary")) 4096 → fillEdgar l entry ev = some ev' →
        ValidUtf8 ev'.title.bytes ∧ ValidUtf8 ev'.body.bytes) ∧
      ∀ docUrl, ValidUtf8 html → Text.HtmlClean html [] (16 * 1024) 10 →
        (ValidUtf8 (fillExhibitEvent html ev docUrl).title.bytes ∧
            ValidUtf8 (fillExhibitEvent html ev docUrl).body.bytes ↔
          CutClean (Text.htmlToText html [] (16 * 1024) 10)) := by
  simp only [validUtf8_iff]
  refine ⟨fun out maxOut sep hhtml hout hsep => ?_, fun l ev => ⟨?_, ?_, ?_⟩⟩
  · exact Text.text_htmlToText_iff hsep hhtml hout maxOut
  · intro item ev' hitem htitle hbody h
    exact text_fillRss l hitem htitle hbody h
  · intro entry ev' hentry htitle hbody h
    exact text_fillEdgar l hentry htitle hbody h
  · intro docUrl hhtml hclean
    rw [text_exhibit_title hhtml hclean]
    exact and_iff_left (text_exhibit_body hhtml hclean ev docUrl)

/-- A reference that goes over the limit. -/
theorem utf8_stored_dash :
    ValidUtf8 (Text.htmlToText (lit "<p>" ++ [0xC3, 0xA9] ++ lit "&mdash;" ++ [0xC3, 0xA9]) [] 4 32) := by
  refine ((utf8_stored _).1 _ _ _ ?_ ⟨[], rfl⟩ (by decide)).mpr (by decide +kernel)
  exact ⟨"<p>é&mdash;é".toList, by decide +kernel⟩

open Parsers in
/-- A limit inside a character, a surrogate in the title of an item, and a headline of an exhibit
whose 250th byte begins a character. -/
theorem utf8_broken :
    ¬ (∀ (html out : Bytes) (maxOut : Nat) (sep : UInt8), ValidUtf8 html → ValidUtf8 out →
      sep.toNat < 0x80 → ValidUtf8 (Text.htmlToText html out maxOut sep)) ∧
    (∀ (l : Lookups ℚ) (ev : NewsEvent ℚ),
      ∃ ev', fillRss l (lit "<title>&#xD800;</title>") ev = some ev' ∧ ¬ ValidUtf8 ev'.title.bytes) ∧
    ∀ filing : NewsEvent ℚ,
      ¬ ValidUtf8 (fillExhibitEvent (List.replicate 249 (ch 'a') ++ [0xC3, 0xA9]) filing []).title.bytes := by
  have hchar : ValidUtf8 [0xC3, 0xA9] := ⟨['é'], by decide⟩
  refine ⟨fun h => ?_, fun l ev => ?_, fun filing h => ?_⟩
  · have hcut := validUtf8_iff.mp (h [0xC3, 0xA9] [] 1 32 hchar ⟨[], rfl⟩ (by decide))
    have hclean := (Text.text_htmlToText_iff (by decide) (validUtf8_iff.mp hchar) .nil 1).mp hcut
    exact absurd hclean (by decide +kernel)
  · have hhead : rssHeadline (lit "<title>&#xD800;</title>") = Text.utf8 0xD800 := by decide +kernel
    have hsome := fillRss_isSome l (lit "<title>&#xD800;</title>") (by rw [hhead]; decide) ev
    obtain ⟨ev', h⟩ := Option.isSome_iff_exists.mp hsome
    refine ⟨ev', h, fun hvalid => ?_⟩
    have htitle : ev'.title.bytes = Text.utf8 0xD800 := by
      rw [(stored_fillRss l h).1, hhead]
      decide +kernel
    rw [validUtf8_iff, htitle, text_utf8_iff (by decide)] at hvalid
    exact absurd hvalid (by decide)
  · have hhtml : ValidUtf8 (List.replicate 249 (ch 'a') ++ [0xC3, 0xA9]) :=
      ⟨List.replicate 249 'a' ++ ['é'], by decide +kernel⟩
    have hclean : Text.HtmlClean (List.replicate 249 (ch 'a') ++ [0xC3, 0xA9]) [] (16 * 1024) 10 := by
      decide +kernel
    have htext : Text.htmlToText (List.replicate 249 (ch 'a') ++ [0xC3, 0xA9]) [] (16 * 1024) 10 =
        List.replicate 249 (ch 'a') ++ [0xC3, 0xA9] := by decide +kernel
    have hcut := (text_exhibit_title (validUtf8_iff.mp hhtml) hclean filing []).mp (validUtf8_iff.mp h)
    rw [htext] at hcut
    exact absurd hcut (by decide +kernel)

end Stok
