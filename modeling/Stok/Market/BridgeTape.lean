import Stok.Market.Bridge

/-!
# A tape replays the bridge feed

The tape has the accepted lines, each after its time. A line read back from it says the same, and
the time before it takes the place of the clock, so the replay makes the calls of the live run.
-/

namespace Stok.Bridge

/-! ## Times -/

theorem intText_plain (v : Int) : ∀ c ∈ Dbl.intText v, c = ch '-' ∨ isDigit c = true := by
  intro c hc
  unfold Dbl.intText at hc
  split at hc
  · rcases List.mem_cons.mp hc with rfl | hc
    · exact .inl rfl
    · exact .inr (Dbl.isDigit_digits _ c hc)
  · exact .inr (Dbl.isDigit_digits _ c hc)

theorem intText_visible (v : Int) : ∀ c ∈ Dbl.intText v, isSpace c = false ∧ c ≠ 0 ∧ c ≠ 10 := by
  have hall : ∀ c : UInt8, c = ch '-' ∨ isDigit c = true →
      isSpace c = false ∧ c ≠ 0 ∧ c ≠ 10 := by decide +kernel
  exact fun c hc => hall c (intText_plain v c hc)

theorem intText_ne_nil (v : Int) : Dbl.intText v ≠ [] := by
  unfold Dbl.intText
  split
  · exact List.cons_ne_nil _ _
  · exact Dbl.digits_ne_nil _

theorem parseI64_intText {v : Int} (hlo : -2 ^ 63 ≤ v) (hhi : v ≤ 2 ^ 63 - 1) :
    parseI64 (Dbl.intText v) = some v := by
  have htrim : trim (Dbl.intText v) = Dbl.intText v :=
    trim_eq_self (fun c hc => (intText_visible v c (List.mem_of_mem_head? hc)).1)
      fun c hc => (intText_visible v c (List.mem_of_mem_getLast? hc)).1
  rw [parseI64, parseInt, htrim, Dbl.fromChars_intText hlo hhi]

/-! ## Lines -/

section

variable {F : Type} [Dbl F] (symbols : SymbolTable F)

/-- The time that a line gives itself. -/
def Line.explicit : Line → Option Int
  | .trade _ _ _ ts => ts
  | .quote _ _ _ _ _ ts => ts
  | _ => none

theorem explicit_bounds {line : Bytes} {v : Int} (h : (readLine symbols line).explicit = some v) :
    -2 ^ 63 ≤ v ∧ v ≤ 2 ^ 63 - 1 := by
  have hfield : ∀ (f : List Bytes) (i : Nat), f[i]?.bind parseI64 = some v →
      -2 ^ 63 ≤ v ∧ v ≤ 2 ^ 63 - 1 := by
    intro f i hf
    obtain ⟨w, -, hw⟩ := Option.bind_eq_some_iff.mp hf
    exact parseInt_bounds hw
  simp only [readLine] at h
  split_ifs at h
  · cases h
  · cases h
  · cases h
  · split at h
    · split at h
      · cases h
      · exact hfield _ _ h
    · cases h
  · split at h
    · exact hfield _ _ h
    · cases h
  · cases h
  · cases h

omit [Dbl F] in
/-- The time on the tape is the line's own or that of its datagram. -/
theorem Line.ts_eq {l : Line} {now ts : Int} (h : l.ts now = some ts) : l.explicit.getD now = ts := by
  cases l <;> cases h <;> rfl

omit [Dbl F] in
/-- Read again with the time from the tape for a clock, a line leads to the same calls. -/
theorem Line.calls_replay {l : Line} {now ts : Int} (h : l.ts now = some ts) (hnow : now ≠ 0)
    (midnight wall : Int) :
    l.calls midnight (if ts ≠ 0 then ts else wall) = l.calls midnight now := by
  have hresolve : l.explicit = none → (if ts ≠ 0 then ts else wall) = now := by
    intro he
    have hts := Line.ts_eq h
    rw [he, Option.getD_none] at hts
    rw [← hts, if_pos hnow]
  cases l with
  | blank => cases h
  | bad => cases h
  | unknownSymbol => cases h
  | trade sym px sz own =>
    cases own with
    | none => rw [hresolve rfl]
    | some v => rfl
  | quote sym bid bsz ask asz own =>
    cases own with
    | none => rw [hresolve rfl]
    | some v => rfl
  | state sym s reason => rw [hresolve rfl]

/-- Accepted lines. -/
def Stats.accepted (st : Stats) : Nat := st.trades + st.quotes + st.states

omit [Dbl F] in
theorem Line.count_accepted {l : Line} {now ts : Int} (h : l.ts now = some ts) (st : Stats) :
    (l.count st).accepted = st.accepted + 1 ∧ (l.count st).bad = st.bad ∧
      (l.count st).unknownSymbol = st.unknownSymbol := by
  cases l with
  | blank => cases h
  | bad => cases h
  | unknownSymbol => cases h
  | trade sym px sz own =>
    refine ⟨?_, rfl, rfl⟩
    simp only [Line.count, Stats.accepted]
    omega
  | quote sym bid bsz ask asz own =>
    refine ⟨?_, rfl, rfl⟩
    simp only [Line.count, Stats.accepted]
    omega
  | state sym s reason => exact ⟨rfl, rfl, rfl⟩

omit [Dbl F] in
theorem Line.rejected {l : Line} {now : Int} (h : l.ts now = none) (midnight : Int) (st : Stats) :
    l.calls midnight now = [] ∧ (l.count st).accepted = st.accepted := by
  cases l with
  | blank => exact ⟨rfl, rfl⟩
  | bad => exact ⟨rfl, rfl⟩
  | unknownSymbol => exact ⟨rfl, rfl⟩
  | trade sym px sz own => cases h
  | quote sym bid bsz ask asz own => cases h
  | state sym s reason => cases h

/-! ## The live run -/

/-- The accepted lines of a datagram, with its time. -/
def entries (d : Datagram) : List (Int × Bytes) :=
  ((lines d.text).map fun raw => (d.wall.toInt, trim raw)).filter
    fun e => ((readLine symbols e.2).ts e.1).isSome

/-- The time of an accepted line. -/
def tsOf (e : Int × Bytes) : Int := ((readLine symbols e.2).ts e.1).getD 0

/-- An accepted line on the tape. -/
def tapeOf (e : Int × Bytes) : Bytes := tapeText (tsOf symbols e) e.2

def callsOf (midnight : Int) (e : Int × Bytes) : List Call :=
  (readLine symbols e.2).calls midnight e.1

variable (midnight : Int)

/-- What the receiver is after more accepted lines. -/
structure Took (r r' : Receiver) (es : List (Int × Bytes)) : Prop where
  calls : r'.calls = r.calls ++ es.flatMap (callsOf symbols midnight)
  tape : r'.tape = r.tape.map (· ++ es.flatMap (tapeOf symbols))
  accepted : r'.st.accepted = r.st.accepted + es.length

theorem Took.trans {r r' r'' : Receiver} {es es' : List (Int × Bytes)}
    (h : Took symbols midnight r r' es) (h' : Took symbols midnight r' r'' es') :
    Took symbols midnight r r'' (es ++ es') where
  calls := by rw [h'.calls, h.calls, List.flatMap_append, List.append_assoc]
  tape := by
    rw [h'.tape, h.tape, Option.map_map, List.flatMap_append]
    congr 1
    funext t
    exact List.append_assoc ..
  accepted := by rw [h'.accepted, h.accepted, List.length_append, Nat.add_assoc]

theorem Took.nil {r r' : Receiver} (hcalls : r'.calls = r.calls) (htape : r'.tape = r.tape)
    (hst : r'.st.accepted = r.st.accepted) : Took symbols midnight r r' [] where
  calls := by rw [hcalls, List.flatMap_nil, List.append_nil]
  tape := by
    rw [htape, List.flatMap_nil]
    cases r.tape <;> simp
  accepted := hst

theorem took_onLine (now : Int) (r : Receiver) (raw : Bytes) :
    Took symbols midnight r (onLine symbols midnight now r raw)
      ([(now, trim raw)].filter fun e => ((readLine symbols e.2).ts e.1).isSome) := by
  cases hts : (readLine symbols (trim raw)).ts now with
  | none =>
    obtain ⟨hcalls, hst⟩ := Line.rejected hts midnight r.st
    rw [List.filter_singleton, hts]
    refine .nil symbols midnight ?_ ?_ hst
    · simp only [onLine, hcalls, List.append_nil]
    · simp only [onLine, hts]
  | some ts =>
    obtain ⟨hst, -⟩ := Line.count_accepted hts r.st
    rw [List.filter_singleton, hts]
    refine ⟨?_, ?_, hst⟩
    · simp [onLine, callsOf]
    · simp [onLine, tapeOf, tsOf, hts]

theorem took_lines (now : Int) (raws : List Bytes) (r : Receiver) :
    Took symbols midnight r (raws.foldl (onLine symbols midnight now) r)
      ((raws.map fun raw => (now, trim raw)).filter
        fun e => ((readLine symbols e.2).ts e.1).isSome) := by
  induction raws generalizing r with
  | nil => exact .nil symbols midnight rfl rfl rfl
  | cons raw raws ih =>
    rw [List.foldl_cons, List.map_cons, ← List.singleton_append, List.filter_append]
    exact (took_onLine symbols midnight now r raw).trans symbols midnight (ih _)

theorem took_live (ds : List Datagram) :
    Took symbols midnight { tape := some [] } (live symbols midnight ds)
      (ds.flatMap (entries symbols)) := by
  suffices h : ∀ r, Took symbols midnight r
      (ds.foldl (fun r d => handle symbols midnight r d.text 0 d.wall.toInt) r)
      (ds.flatMap (entries symbols)) from h _
  induction ds with
  | nil => exact fun r => .nil symbols midnight rfl rfl rfl
  | cons d ds ih =>
    intro r
    have hd : Took symbols midnight r (handle symbols midnight r d.text 0 d.wall.toInt)
        (entries symbols d) := by
      have h := took_lines symbols midnight d.wall.toInt (lines d.text)
        { r with st.datagrams := r.st.datagrams + 1 }
      exact ⟨h.calls, h.tape, h.accepted⟩
    rw [List.foldl_cons, List.flatMap_cons]
    exact hd.trans symbols midnight (ih _)

/-! ## The replay -/

omit [Dbl F] in
theorem mem_linesFrom {raw : Bytes} {c : UInt8} (s cur : Bytes) (hcur : 10 ∉ cur)
    (hraw : raw ∈ linesFrom cur s) (hc : c ∈ raw) : c ≠ 10 ∧ (c ∈ cur ∨ c ∈ s) := by
  have hchop : ∀ l : Bytes, ∀ d ∈ chopCr l, d ∈ l := by
    intro l d hd
    unfold chopCr at hd
    split at hd
    · exact List.mem_of_mem_dropLast hd
    · exact hd
  have hown : c ∈ chopCr cur.reverse → c ≠ 10 ∧ c ∈ cur := by
    intro h
    have hm := List.mem_reverse.mp (hchop _ c h)
    exact ⟨fun he => hcur (he ▸ hm), hm⟩
  induction s generalizing cur with
  | nil =>
    cases cur with
    | nil => cases hraw
    | cons d cur =>
      obtain rfl := List.mem_singleton.mp hraw
      exact ⟨(hown hc).1, .inl (hown hc).2⟩
  | cons d s ih =>
    rw [linesFrom] at hraw
    split at hraw
    · rcases List.mem_cons.mp hraw with rfl | hraw
      · exact ⟨(hown hc).1, .inl (hown hc).2⟩
      · obtain ⟨h1, h2⟩ := ih [] (by simp) hraw (fun h => by cases h)
        rcases h2 with h2 | h2
        · cases h2
        · exact ⟨h1, .inr (List.mem_cons_of_mem _ h2)⟩
    · rename_i hd
      have hcur' : 10 ∉ d :: cur := by
        rw [List.mem_cons, not_or]
        exact ⟨Ne.symm hd, hcur⟩
      obtain ⟨h1, h2⟩ := ih (d :: cur) hcur' hraw fun h => by
        have hm := List.mem_reverse.mp (hchop _ c h)
        exact ⟨fun he => hcur' (he ▸ hm), hm⟩
      rcases h2 with h2 | h2
      · rcases List.mem_cons.mp h2 with rfl | h2
        · exact ⟨h1, .inr (List.mem_cons_self ..)⟩
        · exact ⟨h1, .inl h2⟩
      · exact ⟨h1, .inr (List.mem_cons_of_mem _ h2)⟩

omit [Dbl F] in
theorem mem_of_mem_trim {s : Bytes} {c : UInt8} (h : c ∈ trim s) : c ∈ s := by
  have h1 := (List.dropWhile_suffix isSpace).subset (List.mem_reverse.mp h)
  exact (List.dropWhile_suffix isSpace).subset (List.mem_reverse.mp h1)

/-- What a line that was accepted live is like. -/
structure Accepted (e : Int × Bytes) : Prop where
  now : e.1 ≠ 0
  ts : (readLine symbols e.2).ts e.1 = some (tsOf symbols e)
  bounds : -2 ^ 63 ≤ tsOf symbols e ∧ tsOf symbols e ≤ 2 ^ 63 - 1
  ne_nil : e.2 ≠ []
  trimmed : trim e.2 = e.2
  plain : ∀ c ∈ e.2, c ≠ 10 ∧ c ≠ 0

theorem accepted_of_mem {d : Datagram} (hnul : 0 ∉ d.text) {e : Int × Bytes}
    (he : e ∈ entries symbols d) : Accepted symbols e := by
  obtain ⟨hm, hsome⟩ := List.mem_filter.mp he
  obtain ⟨raw, hraw, rfl⟩ := List.mem_map.mp hm
  have hts : (readLine symbols (trim raw)).ts d.wall.toInt =
      some (tsOf symbols (d.wall.toInt, trim raw)) := (Option.some_get hsome).symm.trans
        (by rw [tsOf, Option.getD_eq_iff.mpr (.inl (Option.some_get hsome).symm)])
  have hwall := d.wall.toInt_lt
  have hwall' := d.wall.le_toInt
  refine ⟨by have := d.wall_pos; simp only; omega, hts, ?_, ?_, trim_trim raw, ?_⟩
  · have h := Line.ts_eq hts
    cases hexp : (readLine symbols (trim raw)).explicit with
    | none =>
      rw [hexp, Option.getD_none] at h
      rw [← h]
      omega
    | some v =>
      rw [hexp, Option.getD_some] at h
      rw [← h]
      exact explicit_bounds symbols hexp
  · intro hnil
    simp only at hnil
    rw [hnil] at hts
    cases hts
  · intro c hc
    obtain ⟨h1, h2⟩ := mem_linesFrom d.text [] (by simp) hraw (mem_of_mem_trim hc)
    rcases h2 with h2 | h2
    · cases h2
    · exact ⟨h1, fun h0 => hnul (h0 ▸ h2)⟩

omit [Dbl F] in
theorem find_blank {a b : Bytes} (ha : 32 ∉ a) : find [32] (a ++ 32 :: b) 0 = some a.length := by
  refine find_eq_some.mpr ⟨Nat.zero_le _, by simp, ?_, ?_⟩
  · rw [List.drop_left]
    simp
  · intro i _ hi hp
    rw [List.drop_append_of_le_length (by omega), List.drop_eq_getElem_cons hi, List.cons_append] at hp
    have hhead := (List.cons_prefix_cons.mp hp).1
    exact ha (hhead ▸ List.getElem_mem hi)

omit [Dbl F] in
/-- A line without a newline is its only one. -/
theorem lines_single {line : Bytes} (hne : line ≠ []) (htrim : trim line = line) (h : 10 ∉ line) :
    lines line = [line] := by
  have hfrom : ∀ s cur : Bytes, 10 ∉ s → cur.reverse ++ s ≠ [] →
      linesFrom cur s = [chopCr (cur.reverse ++ s)] := by
    intro s
    induction s with
    | nil =>
      intro cur _ hne
      cases cur with
      | nil => exact absurd rfl hne
      | cons c cur =>
        rw [linesFrom, List.append_nil]
        exact List.cons_ne_nil c cur
    | cons c s ih =>
      intro cur hs hne
      obtain ⟨hc, hs⟩ := not_or.mp (List.mem_cons.not.mp hs)
      rw [linesFrom, if_neg (Ne.symm hc), ih (c :: cur) hs (by simp)]
      simp
  have hlast : line.getLast? ≠ some 13 := by
    intro h13
    rw [← htrim] at h13
    exact absurd (trim_last h13) (by decide)
  rw [lines, hfrom line [] h hne, List.reverse_nil, List.nil_append, chopCr, if_neg hlast]

/-- A buffer with an accepted line, in the loop of the replay. -/
theorem onTape_tapeOf {e : Int × Bytes} (he : Accepted symbols e) (clock : Nat → Int) (t : Replay) :
    onTape symbols midnight clock t (tapeOf symbols e) =
      { r := onLine symbols midnight
          (if tsOf symbols e ≠ 0 then tsOf symbols e else clock t.messages)
          { t.r with st.datagrams := t.r.st.datagrams + 1 } e.2
        messages := t.messages + 1 } := by
  have hvis := intText_visible (tsOf symbols e)
  have hline : cstr e.2 = e.2 := cstr_eq_self fun h => (he.plain 0 h).2 rfl
  have hstr : cstr (tapeOf symbols e) = Dbl.intText (tsOf symbols e) ++ 32 :: e.2 ++ [10] := by
    rw [tapeOf, tapeText, hline]
    refine cstr_eq_self fun h => ?_
    rcases List.mem_append.mp h with h | h
    · rcases List.mem_append.mp h with h | h
      · exact (hvis 0 h).2.1 rfl
      · rcases List.mem_cons.mp h with h | h
        · exact absurd h (by decide)
        · exact (he.plain 0 h).2 rfl
    · exact absurd (List.mem_singleton.mp h) (by decide)
  have htrim : trim (cstr (tapeOf symbols e)) = Dbl.intText (tsOf symbols e) ++ 32 :: e.2 := by
    rw [hstr]
    refine trim_append_space ?_ ?_ (List.append_ne_nil_of_right_ne_nil _ (List.cons_ne_nil _ _))
      fun c hc => by rw [List.mem_singleton.mp hc]; rfl
    · intro c hc
      rw [List.head?_append_of_ne_nil _ (intText_ne_nil _)] at hc
      exact (hvis c (List.mem_of_mem_head? hc)).1
    · intro c hc
      rw [List.getLast?_append_of_ne_nil _ (List.cons_ne_nil _ _),
        List.getLast?_cons_of_ne_nil he.ne_nil, ← he.trimmed] at hc
      exact trim_last hc
  have hblank : 32 ∉ Dbl.intText (tsOf symbols e) := fun h => by
    have := (hvis 32 h).1
    cases this
  have hdrop : (Dbl.intText (tsOf symbols e) ++ 32 :: e.2).drop
      ((Dbl.intText (tsOf symbols e)).length + 1) = e.2 := by
    rw [← List.drop_drop, List.drop_left]
    rfl
  simp only [onTape, htrim, find_blank hblank, List.take_left,
    parseI64_intText he.bounds.1 he.bounds.2, hdrop, handle]
  rw [lines_single he.ne_nil he.trimmed fun h => (he.plain 10 h).1 rfl]
  rfl

omit [Dbl F] in
theorem getLine_line (l s : Bytes) (h : 10 ∉ l) {n : Nat} (hn : l.length < n) :
    getLine n (l ++ 10 :: s) = (l ++ [10], s) := by
  induction l generalizing n with
  | nil =>
    cases n with
    | zero => exact absurd hn (Nat.not_lt_zero _)
    | succ n => rfl
  | cons c l ih =>
    cases n with
    | zero => exact absurd hn (Nat.not_lt_zero _)
    | succ n =>
      obtain ⟨hc, hl⟩ := not_or.mp (List.mem_cons.not.mp h)
      rw [List.cons_append, getLine, if_neg (Ne.symm hc), ih hl (by simpa using hn)]
      rfl

/-- A tape line ends at its only newline. -/
theorem tapeOf_line {e : Int × Bytes} (he : Accepted symbols e) :
    ∃ l, tapeOf symbols e = l ++ [10] ∧ 10 ∉ l := by
  refine ⟨_, rfl, fun h => ?_⟩
  rcases List.mem_append.mp h with h | h
  · exact (intText_visible _ 10 h).2.2 rfl
  · rcases List.mem_cons.mp h with h | h
    · exact absurd h (by decide)
    · exact (he.plain 10 (List.takeWhile_subset _ h)).1 rfl

/-- The buffers that are read of a tape are its lines. -/
theorem getLines_tape (es : List (Int × Bytes)) (he : ∀ e ∈ es, Accepted symbols e)
    (hlen : ∀ e ∈ es, (tapeOf symbols e).length ≤ 1023) {fuel : Nat}
    (hfuel : (es.flatMap (tapeOf symbols)).length ≤ fuel) :
    getLines fuel (es.flatMap (tapeOf symbols)) = es.map (tapeOf symbols) := by
  induction es generalizing fuel with
  | nil => cases fuel <;> rfl
  | cons e es ih =>
    obtain ⟨he₀, he⟩ := List.forall_mem_cons.mp he
    obtain ⟨hlen₀, hlen⟩ := List.forall_mem_cons.mp hlen
    obtain ⟨l, hl, h10⟩ := tapeOf_line symbols he₀
    rw [hl, List.length_append, List.length_singleton] at hlen₀
    have hcat : tapeOf symbols e ++ es.flatMap (tapeOf symbols) =
        l ++ 10 :: es.flatMap (tapeOf symbols) := by rw [hl, List.append_assoc]; rfl
    rw [List.flatMap_cons, hcat, List.length_append, List.length_cons] at hfuel
    rw [List.flatMap_cons, List.map_cons, hcat]
    cases fuel with
    | zero => omega
    | succ fuel =>
      rw [getLines, getLine_line _ _ h10 (by omega), ih he hlen (by omega), hl]
      simp

/-- The replay of accepted lines. -/
theorem foldl_onTape (es : List (Int × Bytes)) (he : ∀ e ∈ es, Accepted symbols e)
    (clock : Nat → Int) (t : Replay) :
    let t' := (es.map (tapeOf symbols)).foldl (onTape symbols midnight clock) t
    t'.r.calls = t.r.calls ++ es.flatMap (callsOf symbols midnight) ∧
      t'.r.st.bad = t.r.st.bad ∧ t'.r.st.unknownSymbol = t.r.st.unknownSymbol ∧
      t'.r.st.accepted = t.r.st.accepted + es.length ∧ t'.messages = t.messages + es.length := by
  induction es generalizing t with
  | nil => exact ⟨(List.append_nil _).symm, rfl, rfl, rfl, rfl⟩
  | cons e es ih =>
    obtain ⟨he₀, he⟩ := List.forall_mem_cons.mp he
    obtain ⟨h1, h2, h3, h4, h5⟩ := ih he (onTape symbols midnight clock t (tapeOf symbols e))
    have hstep := onTape_tapeOf symbols midnight he₀ clock t
    generalize (if tsOf symbols e ≠ 0 then tsOf symbols e else clock t.messages) = now at hstep
    have hcalls : (onTape symbols midnight clock t (tapeOf symbols e)).r.calls =
        t.r.calls ++ callsOf symbols midnight e := by
      rw [onTape_tapeOf symbols midnight he₀]
      show t.r.calls ++ (readLine symbols (trim e.2)).calls midnight _ = _
      rw [he₀.trimmed, Line.calls_replay he₀.ts he₀.now]
      rfl
    obtain ⟨ha, hb, hu⟩ : (onTape symbols midnight clock t (tapeOf symbols e)).r.st.accepted =
        t.r.st.accepted + 1 ∧
        (onTape symbols midnight clock t (tapeOf symbols e)).r.st.bad = t.r.st.bad ∧
        (onTape symbols midnight clock t (tapeOf symbols e)).r.st.unknownSymbol =
          t.r.st.unknownSymbol := by
      rw [hstep]
      have hc := Line.count_accepted he₀.ts { t.r.st with datagrams := t.r.st.datagrams + 1 }
      rw [← he₀.trimmed] at hc
      exact hc
    have hm : (onTape symbols midnight clock t (tapeOf symbols e)).messages = t.messages + 1 := by
      rw [hstep]
    rw [List.map_cons, List.foldl_cons, List.flatMap_cons, List.length_cons]
    refine ⟨?_, h2.trans hb, h3.trans hu, ?_, ?_⟩
    · rw [h1, hcalls, List.append_assoc]
    · rw [h4, ha]
      omega
    · rw [h5, hm]
      omega

/-- The tape of a live run has the lines that were accepted, and its replay makes the calls of
the live run and accepts every line. -/
theorem tape_replay (ds : List Datagram) (clock : Nat → Int) (hnul : ∀ d ∈ ds, 0 ∉ d.text)
    (hlen : ∀ d ∈ ds, ∀ e ∈ entries symbols d, (tapeOf symbols e).length ≤ 1023) :
    ∃ tape, (live symbols midnight ds).tape = some tape ∧
      tape = (ds.flatMap (entries symbols)).flatMap (tapeOf symbols) ∧
      (replay symbols midnight clock tape).r.calls = (live symbols midnight ds).calls ∧
      (replay symbols midnight clock tape).r.st.bad = 0 ∧
      (replay symbols midnight clock tape).r.st.unknownSymbol = 0 ∧
      (replay symbols midnight clock tape).r.st.accepted = (live symbols midnight ds).st.accepted ∧
      (replay symbols midnight clock tape).messages = (live symbols midnight ds).st.accepted := by
  have hlive := took_live symbols midnight ds
  have hacc : ∀ e ∈ ds.flatMap (entries symbols), Accepted symbols e := by
    intro e he
    obtain ⟨d, hd, he⟩ := List.mem_flatMap.mp he
    exact accepted_of_mem symbols (hnul d hd) he
  have hshort : ∀ e ∈ ds.flatMap (entries symbols), (tapeOf symbols e).length ≤ 1023 := by
    intro e he
    obtain ⟨d, hd, he⟩ := List.mem_flatMap.mp he
    exact hlen d hd e he
  obtain ⟨h1, h2, h3, h4, h5⟩ := foldl_onTape symbols midnight _ hacc clock {}
  have hreplay : replay symbols midnight clock ((ds.flatMap (entries symbols)).flatMap (tapeOf symbols)) =
      ((ds.flatMap (entries symbols)).map (tapeOf symbols)).foldl (onTape symbols midnight clock) {} := by
    rw [replay, getLines_tape symbols _ hacc hshort le_rfl]
  refine ⟨(ds.flatMap (entries symbols)).flatMap (tapeOf symbols), hlive.tape, rfl, ?_⟩
  rw [hreplay]
  refine ⟨?_, h2, h3, ?_, ?_⟩
  · rw [h1, hlive.calls]
  · rw [h4, hlive.accepted]
  · rw [h5, hlive.accepted]
    rfl

end

/-- A trade without a time, one with a time that cannot be read, a halt and a symbol that is not
in the table. -/
def acmeDatagram : Datagram :=
  { text := lit "T ACME 2.40 1000\r\n T  ACME 1e1 5 x\nH ACME H LUDP\nT NOPE 1 1\n"
    wall := 1790337600123456789
    wall_pos := by decide }

theorem tape_replay_acme :
    ∃ tape, (live acmeSymbols 0 [acmeDatagram]).tape = some tape ∧
      (replay acmeSymbols 0 (fun _ => 1) tape).r.calls = (live acmeSymbols 0 [acmeDatagram]).calls ∧
      (replay acmeSymbols 0 (fun _ => 1) tape).messages = 3 := by
  have hlive : (live acmeSymbols 0 [acmeDatagram]).st.accepted = 3 := by decide +kernel
  obtain ⟨tape, h1, -, h2, -, -, -, h3⟩ := tape_replay acmeSymbols 0 [acmeDatagram] (fun _ => 1)
    (by decide +kernel) (by decide +kernel)
  exact ⟨tape, h1, h2, h3.trans hlive⟩

end Stok.Bridge
