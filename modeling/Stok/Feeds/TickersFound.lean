import Stok.Feeds.Tickers

/-!
# Tagged tickers are found

The cursor of `scan` jumps over the lists it has read. No colon is in a list, so every colon of the
text is looked at, and the hits are the tickers of all tags of the text, the first of each kind.
-/

namespace Stok.Tickers

variable (find : Bytes → UInt32) (maxOut : Nat)

/-- The hit of a tag. -/
def hit (t : Venue × Bytes) : Hit :=
  { sym := symOf find t.1 t.2, raw := .print pos_16 (rawText t.1 t.2), venue := t.1.cls }

/-- Neither the symbol nor the text is that of an earlier hit. -/
def Distinct (a b : Hit) : Prop := ¬((b.sym ≠ SymbolTable.kInvalid ∧ a.sym = b.sym) ∨ a.raw = b.raw)

/-- The hits of these tags. -/
structure Found (ts : List (Venue × Bytes)) (hits : List Hit) : Prop where
  room : hits.length ≤ maxOut
  order : hits.Sublist (ts.map (hit find))
  distinct : hits.Pairwise Distinct
  covered : hits.length < maxOut → ∀ t ∈ ts, ∃ h ∈ hits,
    ((hit find t).sym ≠ SymbolTable.kInvalid ∧ h.sym = (hit find t).sym) ∨ h.raw = (hit find t).raw

variable {find maxOut}

theorem Found.push {ts : List (Venue × Bytes)} {hits : List Hit} (h : Found find maxOut ts hits)
    (t : Venue × Bytes) : Found find maxOut (ts ++ [t]) (push find maxOut hits t) := by
  have hkeep : hits.Sublist ((ts ++ [t]).map (hit find)) := by
    rw [List.map_append]
    exact h.order.trans (List.sublist_append_left ..)
  unfold Tickers.push
  split
  · rename_i hfull
    exact ⟨h.room, hkeep, h.distinct, fun hlt => absurd hlt (Nat.not_lt.mpr hfull)⟩
  · rename_i hroom
    dsimp only
    split
    · rename_i hany
      refine ⟨h.room, hkeep, h.distinct, fun hlt x hx => ?_⟩
      rcases List.mem_append.mp hx with hx | hx
      · exact h.covered hlt x hx
      · rw [List.mem_singleton.mp hx]
        obtain ⟨y, hy, hsame⟩ := List.any_eq_true.mp hany
        exact ⟨y, hy, of_decide_eq_true hsame⟩
    · rename_i hany
      refine ⟨?_, ?_, ?_, fun hlt x hx => ?_⟩
      · rw [List.length_append]
        exact Nat.lt_of_not_le hroom
      · rw [List.map_append]
        exact h.order.append (.refl _)
      · refine List.pairwise_append.mpr ⟨h.distinct, List.pairwise_singleton .., fun a ha b hb hsame => hany ?_⟩
        rw [List.mem_singleton.mp hb] at hsame
        exact List.any_eq_true.mpr ⟨a, ha, decide_eq_true hsame⟩
      · rcases List.mem_append.mp hx with hx | hx
        · have hlen : hits.length < maxOut := by
            rw [List.length_append] at hlt
            exact Nat.lt_of_succ_lt hlt
          obtain ⟨y, hy, hsame⟩ := h.covered hlen x hx
          exact ⟨y, List.mem_append_left _ hy, hsame⟩
        · exact ⟨_, List.mem_append_right _ List.mem_cons_self, .inr (List.mem_singleton.mp hx ▸ rfl)⟩

/-- An upper-case letter and at most nine more bytes, of which the last is no punctuation. -/
structure IsTicker (tok : Bytes) : Prop where
  shape : ∃ c more, tok = c :: more ∧ isUpper c = true ∧ more.length ≤ 9 ∧
    (∀ d ∈ more, isTickerByte d = true) ∧ ∀ d, more.getLast? = some d → isTrailing d = false

/-- What may follow a ticker. -/
def Ends (rest : Bytes) : Prop := ∀ c, rest.head? = some c → isTickerByte c = false ∧ isLower c = false

def Blank (s : Bytes) : Prop := ∀ c ∈ s, c = 32

theorem Blank.dropWhile_append {blanks : Bytes} (h : Blank blanks) {s : Bytes} (hs : s.head? ≠ some 32) :
    (blanks ++ s).dropWhile (· == 32) = s := by
  rw [List.dropWhile_append_of_pos fun c hc => by rw [h c hc]; rfl]
  cases s with
  | nil => rfl
  | cons c s => exact List.dropWhile_cons_of_neg (by simpa using hs)

theorem IsTicker.head {tok : Bytes} (h : IsTicker tok) (s : Bytes) : (tok ++ s).head? ≠ some 32 := by
  obtain ⟨c, more, rfl, hupper, -⟩ := h.shape
  rintro hc
  rw [Option.some.inj hc] at hupper
  exact absurd hupper (by decide)

theorem IsTicker.read {tok rest : Bytes} (h : IsTicker tok) (hrest : Ends rest) :
    readTicker (tok ++ rest) = some tok := by
  obtain ⟨c, more, rfl, hupper, hlen, hmore, hlast⟩ := h.shape
  have hstop : (rest.take (9 - more.length)).takeWhile isTickerByte = [] := by
    cases rest with
    | nil => simp
    | cons d rest =>
      cases hk : 9 - more.length with
      | zero => rfl
      | succ k =>
        exact List.takeWhile_cons_of_neg (by simp [(hrest d rfl).1])
  have hread : ((more ++ rest).take 9).takeWhile isTickerByte = more := by
    rw [List.take_append, List.take_of_length_le hlen, List.takeWhile_append_of_pos hmore, hstop,
      List.append_nil]
  have htrim : more.rdropWhile isTrailing = more := by
    rcases List.eq_nil_or_concat more with rfl | ⟨init, d, rfl⟩
    · rfl
    · rw [List.concat_eq_append] at hlast ⊢
      exact List.rdropWhile_concat_neg _ _ _ (by simp [hlast d List.getLast?_concat])
  have hnext : (rest.head?.any isLower) = false := by
    cases rest with
    | nil => rfl
    | cons d rest => exact (hrest d rfl).2
  rw [List.cons_append, readTicker, if_neg (by simp [hupper])]
  dsimp only
  rw [hread, htrim, List.drop_left, hnext]
  rfl

end Stok.Tickers
