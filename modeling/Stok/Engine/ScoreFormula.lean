import Stok.Engine.ScoreText

/-!
# What the score of a text depends on

`formula` is the score as a function of the rules and of which of them occur in the title and the body.
The loop of `score_text` meets the rules in the order of the automaton, with repeats; the marks make
it count each rule once for the title and once for the body (`pass_spec`), and counting commutes, so
that the order does not matter.
-/

namespace Stok

namespace Scorer

open Lib.AhoCorasick

/-- The phrase of a rule occurs in a text. -/
def occurs (text : Bytes) (r : Rule) : Bool := 0 < endings (pattern r.phrase) (folded text) 2

/-- The part of a result that the rules decide. -/
structure Ruled where
  textScore : Int32
  flags : UInt32
  hedges : Int
  promos : Int
  specifics : Int

def amountFlags : UInt32 := kSfUpTo ||| kSfTamAmount

def ruled {F : Type} (r : ScoreResult F) : Ruled :=
  ⟨r.textScore, r.flags &&& ~~~amountFlags, r.hedges, r.promos, r.specifics⟩

/-! ## The formula -/

section

variable (T B : Rule → Bool) (rules : List Rule)

/-- The rules of a kind that occur. -/
def found (k : Kind) : List Rule := rules.filter fun r => decide (r.kind = k) && (T r || B r)

def flagFor (k : Kind) (flag : UInt32) : UInt32 := if found T B rules k = [] then 0 else flag

/-- The weights of a kind, each rule once. -/
def weightOf (k : Kind) : Int := wrap32 ((found T B rules k).map (·.weight)).sum

/-- The best catalyst: a rule counts five more in the title. -/
def bestWeight : Int :=
  max (((rules.filter fun r => decide (r.kind = .cat) && T r).map fun r => wrap32 (r.weight + 5)).foldl max 0)
    (((rules.filter fun r => decide (r.kind = .cat) && B r).map fun r => wrap32 r.weight).foldl max 0)

def formula : Ruled :=
  let s := bestWeight T B rules + min (weightOf T B rules .spec) 15 +
    ((found T B rules .tier1).map (·.weight)).foldl max 0 +
    max (weightOf T B rules .hedge) (-15) + max (weightOf T B rules .promo) (-15) +
    ((found T B rules .nonBinding).map (·.weight)).foldl min 0 + max (weightOf T B rules .neg) (-30)
  let s := if found T B rules .rsplit = [] then s else s - 20
  let s := if found T B rules .distress = [] then s else s - 25
  let s := if found T B rules .dilution = [] then wrap32 s else min (wrap32 s) 15
  let s := if found T B rules .spam = [] then s else 0
  { textScore := clamp32 (.ofInt s) 0 100
    flags := flagFor T B rules .dilution kSfOffering ||| flagFor T B rules .distress kSfDistress |||
      flagFor T B rules .rsplit kSfReverseSplit ||| flagFor T B rules .spam kSfSpam |||
      flagFor T B rules .nonBinding kSfNonBinding ||| flagFor T B rules .tier1 kSfTier1 |||
      flagFor T B rules .promo kSfPromo ||| flagFor T B rules .hedge kSfHedged |||
      flagFor T B rules .neg kSfNegative
    hedges := wrap16 (found T B rules .hedge).length
    promos := wrap16 (found T B rules .promo).length
    specifics := wrap16 (found T B rules .spec).length }

end

/-! ## Counting commutes -/

theorem wrap32_add (a b : Int) : wrap32 (wrap32 a + b) = wrap32 (a + b) := Int.bmod_add_bmod

theorem wrap16_add (a b : Int) : wrap16 (wrap16 a + b) = wrap16 (a + b) := Int.bmod_add_bmod

/-- The flag of a kind; some are set the first time only. -/
def kindFlag (firstTime : Bool) : Kind → UInt32
  | .cat | .spec => 0
  | .hedge => if firstTime then kSfHedged else 0
  | .promo => if firstTime then kSfPromo else 0
  | .tier1 => kSfTier1
  | .nonBinding => kSfNonBinding
  | .dilution => kSfOffering
  | .distress => kSfDistress
  | .rsplit => kSfReverseSplit
  | .spam => kSfSpam
  | .neg => if firstTime then kSfNegative else 0

/-- A tally without what depends on the order. -/
def Tally.core (t : Tally) : Tally := { t with bestCat := .none, matched := [] }

/-- A rule found: the rule, whether in the title, and whether for the first time. -/
abbrev Found := Rule × Bool × Bool

def addTo (p : Bool) (f : Int → Int) (x : Int) : Int := if p then f x else x

/-- What a rule adds, field by field. -/
def Tally.step (t : Tally) (x : Found) : Tally where
  bestCatW := addTo (x.1.kind = .cat) (max · (wrap32 (x.1.weight + if x.2.1 then 5 else 0))) t.bestCatW
  spec := addTo (decide (x.1.kind = .spec) && x.2.2) (fun v => wrap32 (v + x.1.weight)) t.spec
  hedge := addTo (decide (x.1.kind = .hedge) && x.2.2) (fun v => wrap32 (v + x.1.weight)) t.hedge
  promo := addTo (decide (x.1.kind = .promo) && x.2.2) (fun v => wrap32 (v + x.1.weight)) t.promo
  tier1 := addTo (x.1.kind = .tier1) (max · x.1.weight) t.tier1
  nonbinding := addTo (x.1.kind = .nonBinding) (min · x.1.weight) t.nonbinding
  neg := addTo (decide (x.1.kind = .neg) && x.2.2) (fun v => wrap32 (v + x.1.weight)) t.neg
  flags := t.flags ||| kindFlag x.2.2 x.1.kind
  specifics := addTo (decide (x.1.kind = .spec) && x.2.2) (fun v => wrap16 (v + 1)) t.specifics
  hedges := addTo (decide (x.1.kind = .hedge) && x.2.2) (fun v => wrap16 (v + 1)) t.hedges
  promos := addTo (decide (x.1.kind = .promo) && x.2.2) (fun v => wrap16 (v + 1)) t.promos

theorem count_core (t : Tally) (r : Rule) (a b : Bool) :
    (t.count r a b).core = t.core.step (r, a, b) := by
  obtain ⟨ks, ph, w, k, c⟩ := r
  cases k with
  | cat =>
    have hmax : ∀ v : Int, (if t.bestCatW < v then { t with bestCatW := v, bestCat := c } else t).core =
        { t.core with bestCatW := max t.bestCatW v } := by
      intro v
      split
      · rename_i hlt
        rw [max_eq_right hlt.le]
        rfl
      · rename_i hge
        rw [max_eq_left (not_lt.mp hge)]
        rfl
    simp only [Tally.count, hmax]
    simp [Tally.step, Tally.core, addTo, kindFlag]
  | _ => cases b <;> simp [Tally.count, Tally.step, Tally.core, addTo, kindFlag]

theorem addTo_comm {p q : Bool} {f g : Int → Int} (h : ∀ x, f (g x) = g (f x)) {x : Int} :
    addTo p f (addTo q g x) = addTo q g (addTo p f x) := by
  cases p <;> cases q
  · rfl
  · rfl
  · rfl
  · exact h x

theorem wrap32_right_comm (a b x : Int) : wrap32 (wrap32 (x + a) + b) = wrap32 (wrap32 (x + b) + a) := by
  rw [wrap32_add, wrap32_add, Int.add_right_comm]

instance : RightCommutative Tally.step where
  right_comm t x y := by
    have hmax : ∀ a b v : Int, max (max v a) b = max (max v b) a := fun a b v => max_right_comm v a b
    have hmin : ∀ a b v : Int, min (min v a) b = min (min v b) a := fun a b v => min_right_comm v a b
    simp only [Tally.step, Tally.mk.injEq, and_true, true_and]
    refine ⟨addTo_comm fun v => ?_, addTo_comm fun v => ?_, addTo_comm fun v => ?_, addTo_comm fun v => ?_,
      addTo_comm fun v => ?_, addTo_comm fun v => ?_, addTo_comm fun v => ?_, ?_, addTo_comm fun _ => rfl,
      addTo_comm fun _ => rfl, addTo_comm fun _ => rfl⟩
    · exact hmax _ _ v
    · exact wrap32_right_comm _ _ v
    · exact wrap32_right_comm _ _ v
    · exact wrap32_right_comm _ _ v
    · exact hmax _ _ v
    · exact hmin _ _ v
    · exact wrap32_right_comm _ _ v
    · rw [UInt32.or_assoc, UInt32.or_assoc, UInt32.or_comm (kindFlag _ _)]

/-! ## The marks -/

def markBit (inTitle : Bool) : UInt8 := if inTitle then 1 else 2

theorem mark_and_bit (m : UInt8) (inTitle : Bool) : (m ||| markBit inTitle) &&& markBit inTitle ≠ 0 := by
  intro h
  cases inTitle with
  | true =>
    have hbit := congrArg (fun x => x.toBitVec.getLsbD 0) h
    simp [markBit] at hbit
  | false =>
    have hbit := congrArg (fun x => x.toBitVec.getLsbD 1) h
    simp [markBit] at hbit

/-- The rule `id` as the pass over the title or the body counts it. -/
def foundAs (sc : Scorer) (inTitle : Bool) (marks : List UInt8) (id : UInt16) : Found :=
  (sc.rule id, inTitle, marks.getD id.toNat 0 == 0)

/-- A hit that is counted, and one that is not. -/
theorem consider_spec (sc : Scorer) (inTitle : Bool) (s : Tally × List UInt8) (id : UInt16) :
    (s.2.getD id.toNat 0 &&& markBit inTitle ≠ 0 → consider sc inTitle s id = s) ∧
    (s.2.getD id.toNat 0 &&& markBit inTitle = 0 →
      (consider sc inTitle s id).1.core = s.1.core.step (foundAs sc inTitle s.2 id) ∧
      (consider sc inTitle s id).2 =
        s.2.set id.toNat (s.2.getD id.toNat 0 ||| markBit inTitle)) := by
  constructor
  · intro h
    exact if_pos h
  · intro h
    have heq : consider sc inTitle s id = ((if s.2.getD id.toNat 0 == 0 ∧ s.1.matched.length < 12 then
        { s.1 with matched := s.1.matched ++ [id] } else s.1).count (sc.rule id) inTitle
          (s.2.getD id.toNat 0 == 0), s.2.set id.toNat (s.2.getD id.toNat 0 ||| markBit inTitle)) :=
      if_neg (not_not.mpr h)
    rw [heq]
    refine ⟨?_, rfl⟩
    rw [count_core]
    split <;> rfl

/-- A pass counts each rule it hits once, and marks it. -/
theorem pass_spec (sc : Scorer) (inTitle : Bool) (t : Tally) (marks : List UInt8)
    (hunset : ∀ id : UInt16, marks.getD id.toNat 0 &&& markBit inTitle = 0) (hits : List UInt16)
    (hlt : ∀ id ∈ hits, id.toNat < marks.length) :
    ∃ ids : List UInt16, ids.Nodup ∧ (∀ id, id ∈ ids ↔ id ∈ hits) ∧
      (hits.foldl (consider sc inTitle) (t, marks)).1.core =
        (ids.map (foundAs sc inTitle marks)).foldl Tally.step t.core ∧
      (hits.foldl (consider sc inTitle) (t, marks)).2.length = marks.length ∧
      ∀ id : UInt16, (hits.foldl (consider sc inTitle) (t, marks)).2.getD id.toNat 0 =
        if id ∈ ids then marks.getD id.toNat 0 ||| markBit inTitle else marks.getD id.toNat 0 := by
  induction hits using List.reverseRecOn with
  | nil => exact ⟨[], List.nodup_nil, fun _ => Iff.rfl, rfl, rfl, fun _ => rfl⟩
  | append_singleton hits id ih =>
    obtain ⟨ids, hnd, hmem, hcore, hlen, hmarks⟩ :=
      ih fun i hi => hlt i (List.mem_append_left _ hi)
    rw [List.foldl_append, List.foldl_cons, List.foldl_nil]
    generalize hits.foldl (consider sc inTitle) (t, marks) = s at hcore hlen hmarks ⊢
    obtain ⟨hskip, htake⟩ := consider_spec sc inTitle s id
    rcases Decidable.em (id ∈ ids) with hin | hin
    · have hs := hskip (by rw [hmarks, if_pos hin]; exact mark_and_bit _ _)
      rw [hs]
      refine ⟨ids, hnd, fun i => ?_, hcore, hlen, hmarks⟩
      rw [List.mem_append, List.mem_singleton, ← hmem]
      exact ⟨.inl, fun h => h.elim (fun h => h) fun h => h ▸ hin⟩
    · have hmark : s.2.getD id.toNat 0 = marks.getD id.toNat 0 := by rw [hmarks, if_neg hin]
      obtain ⟨hc, hset⟩ := htake (by rw [hmark]; exact hunset _)
      have hidlt : id.toNat < s.2.length := by
        rw [hlen]
        exact hlt id (List.mem_append_right _ (List.mem_singleton.mpr rfl))
      refine ⟨ids ++ [id], ?_, fun i => ?_, ?_, ?_, fun i => ?_⟩
      · exact List.nodup_append.mpr ⟨hnd, List.nodup_singleton _, by
          rintro i hi _ hi' rfl
          exact hin (List.mem_singleton.mp hi' ▸ hi)⟩
      · rw [List.mem_append, List.mem_append, hmem]
      · rw [hc, hcore, List.map_append, List.foldl_append]
        show _ = Tally.step _ (foundAs sc inTitle marks id)
        rw [foundAs, foundAs, hmark]
      · rw [hset, List.length_set, hlen]
      · rw [hset]
        rcases eq_or_ne i id with rfl | hne
        · rw [if_pos (List.mem_append_right _ (List.mem_singleton.mpr rfl)), ← hmark]
          simp [List.getD_eq_getElem?_getD, hidlt]
        · have hne' : id.toNat ≠ i.toNat := fun h => hne (UInt16.toNat_inj.mp h).symm
          have hset' : (s.2.set id.toNat (s.2.getD id.toNat 0 ||| markBit inTitle)).getD i.toNat 0 =
              s.2.getD i.toNat 0 := by
            simp [List.getD_eq_getElem?_getD, hne']
          rw [hset', hmarks]
          simp [List.mem_append, hne]

/-! ## The rules counted -/

/-- What the title and the body add for a rule. -/
def events (T B : Rule → Bool) (r : Rule) : List Found :=
  (if T r then [(r, true, true)] else []) ++ if B r then [(r, false, !T r)] else []

/-- The rules of the title first, then those of the body, or rule by rule. -/
theorem events_perm (T B : Rule → Bool) (rules : List Rule) :
    ((rules.filter T).map (fun r => ((r, true, true) : Found)) ++
      (rules.filter B).map fun r => (r, false, !T r)).Perm (rules.flatMap (events T B)) := by
  induction rules with
  | nil => exact .nil
  | cons r rules ih =>
    rw [List.flatMap_cons]
    refine List.Perm.trans ?_ (ih.append_left (events T B r))
    unfold events
    cases hT : T r <;> cases hB : B r <;>
      simp only [List.filter_cons_of_pos, List.filter_cons_of_neg, hT, hB, Bool.false_eq_true,
        not_false_eq_true, if_true, if_false, List.map_cons, List.nil_append, List.append_nil,
        List.cons_append, List.perm_middle, List.Perm.refl, List.perm_cons]

/-- The tally of the rules, as the formula has it. -/
structure Counts (T B : Rule → Bool) (rules : List Rule) (t : Tally) : Prop where
  best : t.bestCatW = bestWeight T B rules
  spec : t.spec = weightOf T B rules .spec
  hedge : t.hedge = weightOf T B rules .hedge
  promo : t.promo = weightOf T B rules .promo
  tier1 : t.tier1 = ((found T B rules .tier1).map (·.weight)).foldl max 0
  nonbinding : t.nonbinding = ((found T B rules .nonBinding).map (·.weight)).foldl min 0
  neg : t.neg = weightOf T B rules .neg
  flags : t.flags = (formula T B rules).flags
  specifics : t.specifics = wrap16 (found T B rules .spec).length
  hedges : t.hedges = wrap16 (found T B rules .hedge).length
  promos : t.promos = wrap16 (found T B rules .promo).length

variable {T B : Rule → Bool} {rules : List Rule} {t : Tally} {r : Rule}

theorem found_concat (k : Kind) : found T B (rules ++ [r]) k =
    found T B rules k ++ if decide (r.kind = k) && (T r || B r) then [r] else [] := by
  rw [found, List.filter_append]
  congr 1
  rw [List.filter_singleton, Bool.cond_eq_ite]

theorem weightOf_concat (k : Kind) : weightOf T B (rules ++ [r]) k =
    addTo (decide (r.kind = k) && (T r || B r)) (fun v => wrap32 (v + r.weight)) (weightOf T B rules k) := by
  rw [weightOf, found_concat]
  cases decide (r.kind = k) && (T r || B r) with
  | false => simp [addTo, weightOf]
  | true =>
    simp only [addTo, if_true, weightOf, wrap32_add]
    simp

theorem length_concat (k : Kind) : wrap16 (found T B (rules ++ [r]) k).length =
    addTo (decide (r.kind = k) && (T r || B r)) (fun v => wrap16 (v + 1))
      (wrap16 (found T B rules k).length) := by
  rw [found_concat]
  cases decide (r.kind = k) && (T r || B r) with
  | false => simp [addTo]
  | true =>
    simp only [addTo, if_true, wrap16_add]
    simp

/-- A rule of the kinds that count once. -/
theorem once_events (k : Kind) (f : Tally → Int) (g : Int → Rule → Int)
    (hf : ∀ (t : Tally) (x : Found), f (t.step x) = addTo (decide (x.1.kind = k) && x.2.2) (g · x.1) (f t)) :
    f ((events T B r).foldl Tally.step t) =
      addTo (decide (r.kind = k) && (T r || B r)) (g · r) (f t) := by
  unfold events
  cases T r <;> cases B r <;> simp [hf, addTo]

/-- A rule of the kinds where counting twice is counting once. -/
theorem twice_events (k : Kind) (f : Tally → Int) (g : Int → Rule → Int)
    (hf : ∀ (t : Tally) (x : Found), f (t.step x) = addTo (x.1.kind = k) (g · x.1) (f t))
    (hg : ∀ v r, g (g v r) r = g v r) :
    f ((events T B r).foldl Tally.step t) =
      addTo (decide (r.kind = k) && (T r || B r)) (g · r) (f t) := by
  unfold events
  cases T r <;> cases B r <;> cases hk : decide (r.kind = k) <;> simp [hf, addTo, hk, hg]

theorem foldl_concat_found (k : Kind) (g : Int → Int → Int) :
    ((found T B (rules ++ [r]) k).map (·.weight)).foldl g 0 =
      addTo (decide (r.kind = k) && (T r || B r)) (g · r.weight)
        (((found T B rules k).map (·.weight)).foldl g 0) := by
  rw [found_concat]
  cases decide (r.kind = k) && (T r || B r) <;> simp [addTo]

theorem bestWeight_concat : bestWeight T B (rules ++ [r]) =
    addTo (decide (r.kind = .cat) && B r) (max · (wrap32 r.weight))
      (addTo (decide (r.kind = .cat) && T r) (max · (wrap32 (r.weight + 5))) (bestWeight T B rules)) := by
  unfold bestWeight
  simp only [List.filter_append, List.filter_singleton, Bool.cond_eq_ite]
  cases decide (r.kind = .cat) && T r <;> cases decide (r.kind = .cat) && B r <;>
    simp only [addTo, if_true, if_false, Bool.false_eq_true, List.append_nil, List.map_append,
      List.map_cons, List.map_nil, List.foldl_append, List.foldl_cons, List.foldl_nil]
  · rw [max_assoc]
  · rw [max_right_comm]
  · ac_rfl

theorem flagFor_concat (k : Kind) (flag : UInt32) : flagFor T B (rules ++ [r]) k flag =
    flagFor T B rules k flag ||| if decide (r.kind = k) && (T r || B r) then flag else 0 := by
  unfold flagFor
  rw [found_concat]
  cases decide (r.kind = k) && (T r || B r) with
  | false => simp
  | true =>
    have hne : found T B rules k ++ [r] ≠ [] := List.append_ne_nil_of_right_ne_nil _ (List.cons_ne_nil _ _)
    simp only [if_true]
    rw [if_neg hne]
    split <;> simp

theorem flags_events : ((events T B r).foldl Tally.step t).flags =
    t.flags ||| if T r || B r then kindFlag true r.kind else 0 := by
  have hidem : ∀ k, kindFlag true k ||| kindFlag false k = kindFlag true k := by
    intro k
    cases k <;> rfl
  unfold events
  cases T r <;> cases B r <;> simp [Tally.step, UInt32.or_assoc, hidem]

theorem flags_concat : (formula T B (rules ++ [r])).flags =
    (formula T B rules).flags ||| if T r || B r then kindFlag true r.kind else 0 := by
  simp only [formula, flagFor_concat]
  cases T r || B r with
  | false => simp
  | true =>
    cases r.kind <;> simp [kindFlag] <;> ac_rfl

theorem Counts.rule (h : Counts T B rules t) :
    Counts T B (rules ++ [r]) ((events T B r).foldl Tally.step t) where
  best := by
    rw [bestWeight_concat, ← h.best]
    unfold events
    cases T r <;> cases B r <;> cases hk : decide (r.kind = .cat) <;> simp [Tally.step, addTo, hk]
  spec := by
    rw [once_events .spec Tally.spec (fun v r => wrap32 (v + r.weight)) (fun _ _ => rfl), h.spec,
      weightOf_concat]
  hedge := by
    rw [once_events .hedge Tally.hedge (fun v r => wrap32 (v + r.weight)) (fun _ _ => rfl), h.hedge,
      weightOf_concat]
  promo := by
    rw [once_events .promo Tally.promo (fun v r => wrap32 (v + r.weight)) (fun _ _ => rfl), h.promo,
      weightOf_concat]
  tier1 := by
    rw [twice_events .tier1 Tally.tier1 (fun v r => max v r.weight) (fun _ _ => rfl) (by simp), h.tier1,
      foldl_concat_found]
  nonbinding := by
    rw [twice_events .nonBinding Tally.nonbinding (fun v r => min v r.weight) (fun _ _ => rfl) (by simp),
      h.nonbinding, foldl_concat_found]
  neg := by
    rw [once_events .neg Tally.neg (fun v r => wrap32 (v + r.weight)) (fun _ _ => rfl), h.neg,
      weightOf_concat]
  flags := by
    rw [flags_events, flags_concat, h.flags]
  specifics := by
    rw [once_events .spec Tally.specifics (fun v _ => wrap16 (v + 1)) (fun _ _ => rfl), h.specifics,
      length_concat]
  hedges := by
    rw [once_events .hedge Tally.hedges (fun v _ => wrap16 (v + 1)) (fun _ _ => rfl), h.hedges,
      length_concat]
  promos := by
    rw [once_events .promo Tally.promos (fun v _ => wrap16 (v + 1)) (fun _ _ => rfl), h.promos,
      length_concat]

theorem counts_rules (T B : Rule → Bool) (rules : List Rule) :
    Counts T B rules ((rules.flatMap (events T B)).foldl Tally.step {}) := by
  induction rules using List.reverseRecOn with
  | nil =>
    refine ⟨rfl, rfl, rfl, rfl, rfl, rfl, rfl, ?_, ?_, ?_, ?_⟩
    · simp [formula, flagFor, found]
    all_goals exact (by decide : (0 : Int) = wrap16 0)
  | append_singleton rules r ih =>
    rw [List.flatMap_append, List.foldl_append, List.flatMap_singleton]
    exact ih.rule

/-- The flags of the kinds that are found, in the order of the formula. -/
def flagSet (dilution distress rsplit spam nonBinding tier1 promo hedge neg : Bool) : UInt32 :=
  (if dilution then kSfOffering else 0) ||| (if distress then kSfDistress else 0) |||
    (if rsplit then kSfReverseSplit else 0) ||| (if spam then kSfSpam else 0) |||
    (if nonBinding then kSfNonBinding else 0) ||| (if tier1 then kSfTier1 else 0) |||
    (if promo then kSfPromo else 0) ||| (if hedge then kSfHedged else 0) |||
    if neg then kSfNegative else 0

theorem flagSet_spec : ∀ a b c d e f g h i : Bool,
    (flagSet a b c d e f g h i &&& kSfOffering ≠ 0 ↔ a = true) ∧
    (flagSet a b c d e f g h i &&& kSfDistress ≠ 0 ↔ b = true) ∧
    (flagSet a b c d e f g h i &&& kSfReverseSplit ≠ 0 ↔ c = true) ∧
    (flagSet a b c d e f g h i &&& kSfSpam ≠ 0 ↔ d = true) ∧
    flagSet a b c d e f g h i &&& ~~~amountFlags = flagSet a b c d e f g h i := by
  decide +kernel

theorem formula_flags (T B : Rule → Bool) (rules : List Rule) :
    ((formula T B rules).flags &&& kSfOffering ≠ 0 ↔ found T B rules .dilution ≠ []) ∧
    ((formula T B rules).flags &&& kSfDistress ≠ 0 ↔ found T B rules .distress ≠ []) ∧
    ((formula T B rules).flags &&& kSfReverseSplit ≠ 0 ↔ found T B rules .rsplit ≠ []) ∧
    ((formula T B rules).flags &&& kSfSpam ≠ 0 ↔ found T B rules .spam ≠ []) ∧
    (formula T B rules).flags &&& ~~~amountFlags = (formula T B rules).flags := by
  have hflag : ∀ k flag, flagFor T B rules k flag = if decide (found T B rules k ≠ []) then flag else 0 := by
    intro k flag
    rw [flagFor]
    cases found T B rules k <;> rfl
  have heq : (formula T B rules).flags = flagSet (decide (found T B rules .dilution ≠ []))
      (decide (found T B rules .distress ≠ [])) (decide (found T B rules .rsplit ≠ []))
      (decide (found T B rules .spam ≠ [])) (decide (found T B rules .nonBinding ≠ []))
      (decide (found T B rules .tier1 ≠ [])) (decide (found T B rules .promo ≠ []))
      (decide (found T B rules .hedge ≠ [])) (decide (found T B rules .neg ≠ [])) := by
    simp only [formula, hflag]
    rfl
  have h := flagSet_spec (decide (found T B rules .dilution ≠ [])) (decide (found T B rules .distress ≠ []))
    (decide (found T B rules .rsplit ≠ [])) (decide (found T B rules .spam ≠ []))
    (decide (found T B rules .nonBinding ≠ [])) (decide (found T B rules .tier1 ≠ []))
    (decide (found T B rules .promo ≠ [])) (decide (found T B rules .hedge ≠ []))
    (decide (found T B rules .neg ≠ []))
  rw [← heq] at h
  simpa only [decide_eq_true_eq] using h

/-- What is left of the tally is the formula's. -/
theorem Counts.total (h : Counts T B rules t) :
    clamp32 (.ofInt t.total.1) 0 100 = (formula T B rules).textScore := by
  obtain ⟨hdil, hdis, hrs, hspam, -⟩ := formula_flags T B rules
  rw [← h.flags] at hdil hdis hrs hspam
  simp only [formula, ← h.best, ← h.spec, ← h.hedge, ← h.promo, ← h.tier1, ← h.nonbinding, ← h.neg]
  simp only [Tally.total, hdil, hdis, hrs, hspam, ite_not]
  congr 2
  cases found T B rules .rsplit <;> cases found T B rules .distress <;>
    cases found T B rules .dilution <;> simp only [if_true, if_false, reduceCtorEq]

/-! ## Calls -/

/-- A scorer that a rules file has been accepted into. -/
def Accepted (sc : Scorer) : Prop :=
  ∃ (sc₀ : Scorer) (tsv : Bytes), (sc₀.loadRules tsv).1 = .ok () ∧ sc = (sc₀.loadRules tsv).2

/-- The ids of the rules. -/
def ids (sc : Scorer) : List UInt16 := (List.range sc.rules.length).map UInt16.ofNat

theorem Accepted.length_lt {sc : Scorer} (h : sc.Accepted) : sc.rules.length < 65535 := by
  obtain ⟨sc₀, tsv, hok, rfl⟩ := h
  obtain ⟨sc₁, e, hrules, -⟩ := loadRules_ok hok
  rw [e]
  exact hrules

theorem Accepted.mem_ids {sc : Scorer} (h : sc.Accepted) {id : UInt16} :
    id ∈ sc.ids ↔ id.toNat < sc.rules.length := by
  have hlen := h.length_lt
  simp only [ids, List.mem_map, List.mem_range]
  constructor
  · rintro ⟨n, hn, rfl⟩
    rw [UInt16.toNat_ofNat', Nat.mod_eq_of_lt (by omega)]
    exact hn
  · intro hlt
    exact ⟨id.toNat, hlt, UInt16.ofNat_toNat⟩

theorem Accepted.nodup_ids {sc : Scorer} (h : sc.Accepted) : sc.ids.Nodup := by
  have hlen := h.length_lt
  refine List.Nodup.map_on (fun a ha b hb hab => ?_) List.nodup_range
  have hab' := congrArg UInt16.toNat hab
  rw [List.mem_range] at ha hb
  rwa [UInt16.toNat_ofNat', UInt16.toNat_ofNat', Nat.mod_eq_of_lt (by omega),
    Nat.mod_eq_of_lt (by omega)] at hab'

theorem Accepted.map_rule {sc : Scorer} (h : sc.Accepted) : sc.ids.map sc.rule = sc.rules := by
  have hlen := h.length_lt
  refine List.ext_getElem (by simp [ids]) fun i hi hi' => ?_
  have hmod : i % 2 ^ 16 = i := Nat.mod_eq_of_lt (by omega)
  simp only [ids, List.getElem_map, List.getElem_range, rule, UInt16.toNat_ofNat', hmod]
  exact List.getD_eq_getElem _ _ hi'

/-- A scan hits the rules that occur. -/
theorem Accepted.mem_scan {sc : Scorer} (h : sc.Accepted) (text : Bytes) (id : UInt16) :
    id ∈ sc.scan text [] ↔ id ∈ sc.ids.filter fun id => occurs text (sc.rule id) := by
  rw [List.mem_filter, h.mem_ids]
  obtain ⟨sc₀, tsv, hok, rfl⟩ := h
  obtain ⟨sc₁, e, hrules, hstates⟩ := loadRules_ok hok
  obtain ⟨lab, hm⟩ := build_matches sc₁ hrules hstates
  rw [e]
  obtain ⟨hits, hscan, hcount⟩ := hm.scan text []
  rw [hscan, List.nil_append, ← List.count_pos_iff, hcount]
  rcases Nat.lt_or_ge id.toNat sc₁.build.rules.length with hlt | hge
  · have hget : sc₁.build.rules[id.toNat]? = some (sc₁.build.rule id) := by
      rw [rule, List.getElem?_eq_getElem hlt, List.getD_eq_getElem _ _ hlt]
    rw [hget]
    simp [occurs, hlt]
  · rw [List.getElem?_eq_none hge]
    simp [Nat.not_lt.mpr hge]

/-- No rule is marked. -/
def Clear (marks : List UInt8) : Prop := ∀ m ∈ marks, m = 0

theorem clear_nil : Clear [] := nofun

theorem Clear.getD {marks : List UInt8} (h : Clear marks) (i : Nat) : marks.getD i 0 = 0 := by
  rw [List.getD_eq_getElem?_getD]
  cases hi : marks[i]? with
  | none => rfl
  | some m => exact h m (List.mem_of_getElem? hi)

theorem clear_of_getD {marks : List UInt8} (h : ∀ i, marks.getD i 0 = 0) : Clear marks := by
  intro m hm
  obtain ⟨i, hi, rfl⟩ := List.getElem_of_mem hm
  rw [← List.getD_eq_getElem _ 0 hi]
  exact h i

theorem getD_set_ne {marks : List UInt8} {k i : Nat} (m : UInt8) (h : k ≠ i) :
    (marks.set k m).getD i 0 = marks.getD i 0 := by
  simp [List.getD_eq_getElem?_getD, h]

/-- A pass marks nothing but what it hits. -/
theorem pass_unhit (sc : Scorer) (inTitle : Bool) (s : Tally × List UInt8) {hits : List UInt16} {i : Nat}
    (hi : ∀ id ∈ hits, id.toNat ≠ i) :
    (hits.foldl (consider sc inTitle) s).2.getD i 0 = s.2.getD i 0 := by
  induction hits generalizing s with
  | nil => rfl
  | cons id hits ih =>
    obtain ⟨hid, hi⟩ := List.forall_mem_cons.mp hi
    rw [List.foldl_cons, ih _ hi]
    obtain ⟨hskip, htake⟩ := consider_spec sc inTitle s id
    rcases eq_or_ne (s.2.getD id.toNat 0 &&& markBit inTitle) 0 with hm | hm
    · rw [(htake hm).2]
      exact getD_set_ne _ hid
    · rw [hskip hm]

theorem reset_getD (marks : List UInt8) (hits : List UInt16) (i : Nat) :
    (hits.foldl (fun seen id => seen.set id.toNat 0) marks).getD i 0 = marks.getD i 0 ∧
        (∀ id ∈ hits, id.toNat ≠ i) ∨
      (hits.foldl (fun seen id => seen.set id.toNat 0) marks).getD i 0 = 0 := by
  induction hits generalizing marks with
  | nil => exact .inl ⟨rfl, nofun⟩
  | cons id hits ih =>
    rw [List.foldl_cons]
    rcases ih (marks.set id.toNat 0) with ⟨hsame, hne⟩ | hzero
    · rw [hsame]
      rcases eq_or_ne id.toNat i with rfl | hid
      · right
        rcases Nat.lt_or_ge id.toNat marks.length with hlt | hge
        · simp [List.getD_eq_getElem?_getD, hlt]
        · simp [List.getD_eq_getElem?_getD, hge]
      · left
        exact ⟨getD_set_ne _ hid, List.forall_mem_cons.mpr ⟨hid, hne⟩⟩
    · exact .inr hzero

theorem marks_restored {sc : Scorer} {marks : List UInt8} (hclear : Clear marks)
    (hitsTitle hitsBody : List UInt16) (t : Tally) :
    Clear (hitsBody.foldl (fun seen id => seen.set id.toNat 0)
      (hitsTitle.foldl (fun seen id => seen.set id.toNat 0)
        (hitsBody.foldl (consider sc false) (hitsTitle.foldl (consider sc true) (t, marks))).2)) := by
  refine clear_of_getD fun i => ?_
  rcases reset_getD (hitsTitle.foldl (fun seen id => seen.set id.toNat 0)
    (hitsBody.foldl (consider sc false) (hitsTitle.foldl (consider sc true) (t, marks))).2) hitsBody i
    with ⟨hb, hunhit⟩ | hzero
  · rw [hb]
    rcases reset_getD (hitsBody.foldl (consider sc false) (hitsTitle.foldl (consider sc true) (t, marks))).2
      hitsTitle i with ⟨ht, hunhit'⟩ | hzero
    · rw [ht, pass_unhit sc false _ hunhit, pass_unhit sc true _ hunhit']
      exact hclear.getD i
    · exact hzero
  · exact hzero

/-- The two passes count what occurs in the title and in the body. -/
theorem Accepted.counts {sc : Scorer} (h : sc.Accepted) {marks : List UInt8} (hclear : Clear marks)
    (hlen : sc.rules.length ≤ marks.length) (title body : Bytes) :
    Counts (occurs title) (occurs body) sc.rules
      ((sc.scan body []).foldl (consider sc false)
        ((sc.scan title []).foldl (consider sc true) ({}, marks))).1.core := by
  have hlt : ∀ text, ∀ id ∈ sc.scan text [], id.toNat < marks.length := by
    intro text id hid
    rw [h.mem_scan, List.mem_filter, h.mem_ids] at hid
    exact hid.1.trans_le hlen
  have hzero : ∀ id : UInt16, marks.getD id.toNat 0 = 0 := fun id => hclear.getD id.toNat
  obtain ⟨ts, htnd, htmem, htcore, htlen, htmarks⟩ := pass_spec sc true {} marks
    (fun id => by rw [hzero]; rfl) (sc.scan title []) (hlt title)
  generalize (sc.scan title []).foldl (consider sc true) ({}, marks) = s at htcore htlen htmarks ⊢
  have hs : s = (s.1, s.2) := rfl
  obtain ⟨bs, hbnd, hbmem, hbcore, -, -⟩ := pass_spec sc false s.1 s.2
    (fun id => by rw [htmarks, hzero]; split <;> rfl) (sc.scan body [])
    (fun id hid => htlen ▸ hlt body id hid)
  rw [← hs] at hbcore
  rw [hbcore, htcore, ← List.foldl_append]
  -- the ids hit are those of the rules that occur
  have htperm : ts.Perm (sc.ids.filter fun id => occurs title (sc.rule id)) :=
    (List.perm_ext_iff_of_nodup htnd (h.nodup_ids.filter _)).mpr fun id =>
      (htmem id).trans (h.mem_scan title id)
  have hbperm : bs.Perm (sc.ids.filter fun id => occurs body (sc.rule id)) :=
    (List.perm_ext_iff_of_nodup hbnd (h.nodup_ids.filter _)).mpr fun id =>
      (hbmem id).trans (h.mem_scan body id)
  have htitle : (ts.map (foundAs sc true marks)).Perm
      ((sc.rules.filter (occurs title)).map fun r => (r, true, true)) := by
    refine (htperm.map _).trans (.of_eq ?_)
    rw [← h.map_rule, List.filter_map, List.map_map]
    refine List.map_congr_left fun id _ => ?_
    rw [foundAs, hzero]
    rfl
  have hbody : (bs.map (foundAs sc false s.2)).Perm
      ((sc.rules.filter (occurs body)).map fun r => (r, false, !occurs title r)) := by
    refine (hbperm.map _).trans (.of_eq ?_)
    conv_rhs => rw [← h.map_rule, List.filter_map, List.map_map]
    refine List.map_congr_left fun id hid => ?_
    have hin : id ∈ ts ↔ occurs title (sc.rule id) = true := by
      rw [htperm.mem_iff, List.mem_filter]
      exact ⟨fun hm => hm.2, fun hm => ⟨List.mem_of_mem_filter hid, hm⟩⟩
    rw [foundAs, htmarks, hzero]
    cases hocc : occurs title (sc.rule id) with
    | true =>
      rw [if_pos (hin.mpr hocc)]
      simp [hocc, markBit]
    | false =>
      rw [if_neg fun hm => by rw [hin.mp hm] at hocc; cases hocc]
      simp [hocc]
  have hperm := (htitle.append hbody).trans (events_perm (occurs title) (occurs body) sc.rules)
  rw [hperm.foldl_eq]
  exact counts_rules _ _ _

theorem consider_agree (sc : Scorer) (inTitle : Bool) (t : Tally) {m m' : List UInt8} {id : UInt16}
    (hm : m.getD id.toNat 0 = m'.getD id.toNat 0) :
    (consider sc inTitle (t, m) id = (t, m) ∧ consider sc inTitle (t, m') id = (t, m')) ∨
      ∃ t' v, consider sc inTitle (t, m) id = (t', m.set id.toNat v) ∧
        consider sc inTitle (t, m') id = (t', m'.set id.toNat v) := by
  unfold consider
  dsimp only
  rw [hm]
  generalize (if inTitle = true then (1 : UInt8) else 2) = bit
  split
  · exact .inl ⟨rfl, rfl⟩
  · exact .inr ⟨_, _, rfl, rfl⟩

/-- A pass depends on the marks of the rules it hits. -/
theorem pass_agree (sc : Scorer) (inTitle : Bool) (hits : List UInt16) (t : Tally) {m m' : List UInt8}
    (hm : ∀ i, m.getD i 0 = m'.getD i 0) (hlt : ∀ id ∈ hits, id.toNat < m.length ∧ id.toNat < m'.length) :
    (hits.foldl (consider sc inTitle) (t, m)).1 = (hits.foldl (consider sc inTitle) (t, m')).1 ∧
      ∀ i, (hits.foldl (consider sc inTitle) (t, m)).2.getD i 0 =
        (hits.foldl (consider sc inTitle) (t, m')).2.getD i 0 := by
  induction hits generalizing t m m' with
  | nil => exact ⟨rfl, hm⟩
  | cons id hits ih =>
    obtain ⟨⟨hid, hid'⟩, hlt⟩ := List.forall_mem_cons.mp hlt
    rw [List.foldl_cons, List.foldl_cons]
    rcases consider_agree sc inTitle t (hm id.toNat) with ⟨h, h'⟩ | ⟨t', v, h, h'⟩ <;> rw [h, h']
    · exact ih _ hm hlt
    · refine ih _ (fun i => ?_) fun i hi => ?_
      · rcases eq_or_ne id.toNat i with rfl | hne
        · simp [List.getD_eq_getElem?_getD, hid, hid']
        · rw [getD_set_ne _ hne, getD_set_ne _ hne, hm]
      · rw [List.length_set, List.length_set]
        exact hlt i hi

theorem or_and_compl {f g mask : UInt32} (h : g &&& ~~~mask = 0) : (f ||| g) &&& ~~~mask = f &&& ~~~mask := by
  have h' := congrArg UInt32.toBitVec h
  refine UInt32.eq_of_toBitVec_eq ?_
  ext i hi
  have hi' := congrArg (fun v : BitVec 32 => v[i]) h'
  simp at hi' ⊢
  grind

theorem flags_amount {F : Type} [Dbl F] (t : Bytes) (fuel pos : Nat) (best : F) (flags : UInt32) :
    (amountLoop t fuel pos best flags).2 &&& ~~~amountFlags = flags &&& ~~~amountFlags := by
  induction fuel generalizing pos best flags with
  | zero => rfl
  | succ fuel ih =>
    rw [amountLoop]
    cases find [ch '$'] t pos with
    | none => rfl
    | some dollar =>
      dsimp only
      generalize (figure _ _ : Figure F × Bytes) = fr
      obtain ⟨f, rest⟩ := fr
      dsimp only
      generalize multiplier _ = mult
      generalize (if 1 < mult then _ else rest) = after
      split
      · exact ih _ _ _
      · split
        · exact ih _ _ _
        · split
          · exact (ih _ _ _).trans (or_and_compl (by decide))
          · refine (ih _ _ _).trans ?_
            split
            · exact or_and_compl (by decide)
            · rfl

/-- The marks that a call works with. -/
def startMarks (sc : Scorer) (seen : List UInt8) : List UInt8 :=
  if seen.length < sc.rules.length then List.replicate sc.rules.length 0 else seen

theorem startMarks_spec (sc : Scorer) {seen : List UInt8} (h : Clear seen) :
    Clear (startMarks sc seen) ∧ sc.rules.length ≤ (startMarks sc seen).length := by
  unfold startMarks
  split
  · exact ⟨fun m hm => List.eq_of_mem_replicate hm, by rw [List.length_replicate]⟩
  · rename_i hge
    exact ⟨h, Nat.not_lt.mp hge⟩

/-- The tally of a text. -/
def tallyOf (sc : Scorer) (seen : List UInt8) (title body : Bytes) : Tally × List UInt8 :=
  (sc.scan body []).foldl (consider sc false)
    ((sc.scan title []).foldl (consider sc true) ({}, startMarks sc seen))

theorem Accepted.tallyOf_eq {sc : Scorer} (h : sc.Accepted) {seen seen' : List UInt8}
    (hclear : Clear seen) (hclear' : Clear seen') (title body : Bytes) :
    (tallyOf sc seen title body).1 = (tallyOf sc seen' title body).1 := by
  obtain ⟨hc, hlen⟩ := startMarks_spec sc hclear
  obtain ⟨hc', hlen'⟩ := startMarks_spec sc hclear'
  have hlt : ∀ text, ∀ id ∈ sc.scan text [], id.toNat < sc.rules.length := by
    intro text id hid
    rw [h.mem_scan, List.mem_filter, h.mem_ids] at hid
    exact hid.1
  unfold tallyOf
  obtain ⟨ht, hm⟩ := pass_agree sc true (sc.scan title []) {}
    (fun i => (hc.getD i).trans (hc'.getD i).symm)
    fun id hid => ⟨(hlt title id hid).trans_le hlen, (hlt title id hid).trans_le hlen'⟩
  obtain ⟨-, -, -, -, hl, -⟩ := pass_spec sc true {} (startMarks sc seen)
    (fun id => by rw [hc.getD]; rfl) (sc.scan title []) fun id hid => (hlt title id hid).trans_le hlen
  obtain ⟨-, -, -, -, hl', -⟩ := pass_spec sc true {} (startMarks sc seen')
    (fun id => by rw [hc'.getD]; rfl) (sc.scan title []) fun id hid => (hlt title id hid).trans_le hlen'
  generalize (sc.scan title []).foldl (consider sc true) ({}, startMarks sc seen) = s at ht hm hl ⊢
  generalize (sc.scan title []).foldl (consider sc true) ({}, startMarks sc seen') = s' at ht hm hl' ⊢
  obtain ⟨t, m⟩ := s
  obtain ⟨t', m'⟩ := s'
  obtain rfl : t = t' := ht
  refine (pass_agree sc false _ _ hm fun id hid => ?_).1
  exact ⟨(hlt body id hid).trans_le (hl ▸ hlen), (hlt body id hid).trans_le (hl' ▸ hlen')⟩

theorem total_core (t : Tally) : t.core.total.1 = t.total.1 := by
  rcases eq_or_ne (t.flags &&& kSfReverseSplit) 0 with h₁ | h₁ <;>
    rcases eq_or_ne (t.flags &&& kSfDistress) 0 with h₂ | h₂ <;>
    rcases eq_or_ne (t.flags &&& kSfOffering) 0 with h₃ | h₃ <;>
    simp [Tally.total, Tally.core, h₁, h₂, h₃]

/-- The result of a tally. -/
def resultOf {F : Type} [Dbl F] (t : Tally) (title body : Bytes) : ScoreResult F :=
  let a := extractAmount (F := F) title 0
  let b := extractAmount (F := F) (body.take 1500) a.2
  { textScore := clamp32 (.ofInt t.total.1) 0 100
    score := clamp32 (.ofInt t.total.1) 0 100
    catalyst := t.total.2
    flags := t.flags ||| b.2
    amountUsd := Dbl.max a.1 b.1
    materiality := Dbl.ofRat 0
    hedges := t.hedges
    promos := t.promos
    specifics := t.specifics
    matched := t.matched }

theorem scoreText_eq {F : Type} [Dbl F] (sc : Scorer) (seen : List UInt8) (title body : Bytes) :
    (scoreText (F := F) sc seen title body).1 = resultOf (tallyOf sc seen title body).1 title body := rfl

theorem Counts.ruled {F : Type} [Dbl F] (h : Counts T B rules t.core) (title body : Bytes) :
    Scorer.ruled (resultOf (F := F) t title body) = formula T B rules := by
  have hamount : (extractAmount (F := F) (body.take 1500) (extractAmount (F := F) title 0).2).2 &&&
      ~~~amountFlags = 0 := by
    rw [extractAmount, flags_amount, extractAmount, flags_amount]
    rfl
  have hscore : (resultOf (F := F) t title body).textScore = (formula T B rules).textScore := by
    rw [← h.total, total_core]
    rfl
  have hflags : (resultOf (F := F) t title body).flags &&& ~~~amountFlags = (formula T B rules).flags := by
    show (t.flags ||| _) &&& ~~~amountFlags = _
    rw [or_and_compl hamount, show t.flags = _ from h.flags]
    exact (formula_flags T B rules).2.2.2.2
  unfold Scorer.ruled
  rw [hscore, hflags, show (resultOf (F := F) t title body).hedges = _ from h.hedges,
    show (resultOf (F := F) t title body).promos = _ from h.promos,
    show (resultOf (F := F) t title body).specifics = _ from h.specifics]
  rfl

/-- A call that finds the marks clear returns the formula's score, leaves them clear, and does not
depend on how many there are. -/
theorem Accepted.scoreText_spec {F : Type} [Dbl F] {sc : Scorer} (h : sc.Accepted) {seen : List UInt8}
    (hclear : Clear seen) (title body : Bytes) :
    Scorer.ruled (scoreText (F := F) sc seen title body).1 =
        formula (occurs title) (occurs body) sc.rules ∧
      Clear (scoreText (F := F) sc seen title body).2 ∧
      (scoreText (F := F) sc seen title body).1 = (scoreText sc [] title body).1 := by
  obtain ⟨hc, hlen⟩ := startMarks_spec sc hclear
  refine ⟨?_, marks_restored hc (sc.scan title []) (sc.scan body []) {}, ?_⟩
  · rw [scoreText_eq]
    exact Counts.ruled (h.counts hc hlen title body) title body
  · rw [scoreText_eq, scoreText_eq, h.tallyOf_eq hclear clear_nil]

/-! ## What the formula depends on -/

theorem found_perm {rules' : List Rule} (h : rules.Perm rules') (k : Kind) :
    (found T B rules k).Perm (found T B rules' k) := h.filter _

theorem formula_perm {rules' : List Rule} (h : rules.Perm rules') :
    formula T B rules = formula T B rules' := by
  have hempty : ∀ k, found T B rules k = [] ↔ found T B rules' k = [] := fun k =>
    ⟨fun hk => (hk ▸ found_perm h k).symm.eq_nil, fun hk => (hk ▸ found_perm h k).eq_nil⟩
  have hlen : ∀ k, (found T B rules k).length = (found T B rules' k).length := fun k =>
    (found_perm h k).length_eq
  have hweight : ∀ k, weightOf T B rules k = weightOf T B rules' k := fun k => by
    rw [weightOf, weightOf, ((found_perm h k).map _).sum_eq]
  have hbest : bestWeight T B rules = bestWeight T B rules' := by
    rw [bestWeight, bestWeight, ((h.filter _).map _).foldl_eq, ((h.filter _).map _).foldl_eq]
  have hmax : ∀ k, ((found T B rules k).map (·.weight)).foldl max 0 =
      ((found T B rules' k).map (·.weight)).foldl max 0 := fun k => ((found_perm h k).map _).foldl_eq _
  have hmin : ∀ k, ((found T B rules k).map (·.weight)).foldl min 0 =
      ((found T B rules' k).map (·.weight)).foldl min 0 := fun k => ((found_perm h k).map _).foldl_eq _
  simp only [formula, flagFor, hempty, hlen, hweight, hbest, hmax, hmin]

theorem formula_congr {T' B' : Rule → Bool} (h : ∀ r ∈ rules, T r = T' r ∧ B r = B' r) :
    formula T B rules = formula T' B' rules := by
  have hfound : ∀ k, found T B rules k = found T' B' rules k := fun k =>
    List.filter_congr fun r hr => by rw [(h r hr).1, (h r hr).2]
  have hT : (rules.filter fun r => decide (r.kind = .cat) && T r) =
      rules.filter fun r => decide (r.kind = .cat) && T' r :=
    List.filter_congr fun r hr => by rw [(h r hr).1]
  have hB : (rules.filter fun r => decide (r.kind = .cat) && B r) =
      rules.filter fun r => decide (r.kind = .cat) && B' r :=
    List.filter_congr fun r hr => by rw [(h r hr).2]
  have hbest : bestWeight T B rules = bestWeight T' B' rules := by
    rw [bestWeight, bestWeight, hT, hB]
  simp only [formula, flagFor, weightOf, hfound, hbest]

/-! ## Threads -/

/-- A call of `score_text`. -/
structure Reading where
  sc : Scorer
  title : Bytes
  body : Bytes

/-- The calls that a thread makes, from the marks it has: the results, and the marks in the end. -/
def thread {F : Type} [Dbl F] : List UInt8 → List Reading → List (ScoreResult F) × List UInt8
  | seen, [] => ([], seen)
  | seen, c :: calls =>
    let (r, seen) := c.sc.scoreText seen c.title c.body
    let (rs, seen) := thread seen calls
    (r :: rs, seen)

theorem thread_spec {F : Type} [Dbl F] {calls : List Reading} (h : ∀ c ∈ calls, c.sc.Accepted)
    {seen : List UInt8} (hclear : Clear seen) :
    Clear (thread (F := F) seen calls).2 ∧
      List.Forall₂ (fun c r => Scorer.ruled r = formula (occurs c.title) (occurs c.body) c.sc.rules ∧
        r = (c.sc.scoreText [] c.title c.body).1) calls (thread (F := F) seen calls).1 := by
  induction calls generalizing seen with
  | nil => exact ⟨hclear, .nil⟩
  | cons c calls ih =>
    obtain ⟨hc, h⟩ := List.forall_mem_cons.mp h
    obtain ⟨hruled, hclear', hsame⟩ := hc.scoreText_spec (F := F) hclear c.title c.body
    obtain ⟨hend, hrest⟩ := ih h hclear'
    exact ⟨hend, .cons ⟨hruled, hsame⟩ hrest⟩

/-- The formula gives the results of a thread without a run of the automata. -/
theorem turn_results {calls : List Reading} {rs : List (ScoreResult ℚ)}
    (h : List.Forall₂ (fun c r => ruled r = formula (occurs c.title) (occurs c.body) c.sc.rules ∧
      r = (c.sc.scoreText [] c.title c.body).1) calls rs) :
    rs.map (fun r => (r.textScore, r.hedges)) = calls.map fun c =>
      ((formula (occurs c.title) (occurs c.body) c.sc.rules).textScore,
        (formula (occurs c.title) (occurs c.body) c.sc.rules).hedges) := by
  induction h with
  | nil => rfl
  | cons hr _ ih =>
    rw [List.map_cons, List.map_cons, ih, ← hr.1]
    rfl

/-- Whatever scorers a thread calls and in whatever order, the marks are clear after every call, a call
returns what it returns on a fresh thread, and the rules decide the score, the flags and the counts by
the formula. So these are the same for the same rules in another order, and for texts in which the
same rules occur. -/
theorem score_formula {F : Type} [Dbl F] (calls : List Reading) (h : ∀ c ∈ calls, c.sc.Accepted) :
    Clear (thread (F := F) [] calls).2 ∧
    List.Forall₂ (fun c r => ruled r = formula (occurs c.title) (occurs c.body) c.sc.rules ∧
      r = (c.sc.scoreText [] c.title c.body).1) calls (thread (F := F) [] calls).1 ∧
    ∀ c ∈ calls, ∀ c' ∈ calls, c.sc.rules.Perm c'.sc.rules →
      (∀ r ∈ c.sc.rules, occurs c.title r = occurs c'.title r ∧ occurs c.body r = occurs c'.body r) →
      ruled (c.sc.scoreText (F := F) [] c.title c.body).1 =
        ruled (c'.sc.scoreText (F := F) [] c'.title c'.body).1 := by
  obtain ⟨hclear, hall⟩ := thread_spec (F := F) h clear_nil
  refine ⟨hclear, hall, fun c hc c' hc' hperm hocc => ?_⟩
  obtain ⟨hruled, -, -⟩ := (h c hc).scoreText_spec (F := F) clear_nil c.title c.body
  obtain ⟨hruled', -, -⟩ := (h c' hc').scoreText_spec (F := F) clear_nil c'.title c'.body
  rw [hruled, hruled', formula_congr hocc, formula_perm hperm]

/-- Two scorers with different numbers of rules take turns. -/
theorem score_formula_turns :
    let a := (loadRules {} (lit "spec\t4\tup\nneg\t1\tup\n")).2
    let b := (loadRules {} (lit "hedge\t-3\tmay\n")).2
    let calls : List Reading := [⟨a, lit "up", lit "Up"⟩, ⟨b, lit "May", []⟩, ⟨a, [], lit "up, up"⟩]
    Clear (thread (F := ℚ) [] calls).2 ∧
      (thread (F := ℚ) [] calls).1.map (fun r => (r.textScore, r.hedges)) = [(5, 0), (0, 1), (5, 0)] := by
  intro a b calls
  have ha : a.Accepted := ⟨{}, lit "spec\t4\tup\nneg\t1\tup\n", by decide +kernel, rfl⟩
  have hb : b.Accepted := ⟨{}, lit "hedge\t-3\tmay\n", by decide +kernel, rfl⟩
  have h : ∀ c ∈ calls, c.sc.Accepted := by
    clear_value a b
    subst calls
    rintro c (_ | ⟨_, _ | ⟨_, _ | ⟨_, hc⟩⟩⟩)
    · exact ha
    · exact hb
    · exact ha
    · cases hc
  obtain ⟨hclear, hall, -⟩ := score_formula (F := ℚ) calls h
  refine ⟨hclear, (turn_results hall).trans ?_⟩
  have hra : a.rules = (parseRules (lit "spec\t4\tup\nneg\t1\tup\n")).1 := loadRules_rules _ _
  have hrb : b.rules = (parseRules (lit "hedge\t-3\tmay\n")).1 := loadRules_rules _ _
  clear_value a b
  simp only [calls, List.map_cons, List.map_nil, hra, hrb]
  decide +kernel

/-! ## Many rules -/

theorem prefix_mem {N : Set (List Letter)} (hN : Nodes N) {u w : List Letter} (h : u ++ w ∈ N) : u ∈ N := by
  induction w using List.reverseRecOn with
  | nil => rwa [List.append_nil] at h
  | append_singleton w c ih =>
    rw [← List.append_assoc] at h
    exact ih (hN.init _ _ h)

/-- The path of a word that is there adds nothing. -/
theorem path_of_mem {T : Trie} {lab : Nat → List Letter} (h : T.Labelled lab) {s : Nat}
    (hs : s < T.size) {w : List Letter} (hw : lab s ++ w ∈ T.nodes lab) : (T.path s w).1 = T := by
  induction w generalizing s with
  | nil => rfl
  | cons c w ih =>
    rw [← List.singleton_append, ← List.append_assoc] at hw
    obtain ⟨t, ht, hl⟩ := prefix_mem h.isNodes hw
    have hchild : T.child s c = (T, t) := by simp [Trie.child, h.row_eq hs ht hl]
    rw [Trie.path, hchild]
    exact ih ht (hl ▸ hw)

/-- A word many times is a word once. -/
theorem size_replicate (w : List Letter) {n : Nat} (hn : n + 1 ≤ 2 ^ 16) :
    (Trie.ofWords (List.replicate (n + 1) w)).size = (Trie.ofWords [w]).size := by
  induction n with
  | zero => rw [List.replicate_one]
  | succ n ih =>
    have hlen : (List.replicate (n + 1) w).length ≤ 2 ^ 16 := by
      rw [List.length_replicate]
      omega
    obtain ⟨lab, h, ho⟩ := Trie.ofWords_spec (List.replicate (n + 1) w) hlen
    have hmem : w ∈ (Trie.ofWords (List.replicate (n + 1) w)).nodes lab :=
      ho.mem w (List.mem_replicate.mpr ⟨Nat.succ_ne_zero n, rfl⟩)
    have e : Trie.ofWords (List.replicate (n + 1 + 1) w) =
        (Trie.ofWords (List.replicate (n + 1) w)).insert (n + 1) w := by
      rw [List.replicate_succ']
      simp [Trie.ofWords, List.zipIdx_append]
    have hsame : ((Trie.ofWords (List.replicate (n + 1) w)).path 0 w).1 =
        Trie.ofWords (List.replicate (n + 1) w) :=
      path_of_mem h h.root_lt (by rw [h.root]; exact hmem)
    rw [e, ← ih (by omega)]
    show ((Trie.ofWords (List.replicate (n + 1) w)).path 0 w).1.go.length = _
    rw [hsame]
    rfl

theorem linesFrom_line {l : Bytes} (hl : ∀ c ∈ l, c ≠ 10) (cur rest : Bytes) :
    linesFrom cur (l ++ 10 :: rest) = chopCr (cur.reverse ++ l) :: linesFrom [] rest := by
  induction l generalizing cur with
  | nil => cases cur <;> simp [linesFrom]
  | cons c l ih =>
    obtain ⟨hc, hl⟩ := List.forall_mem_cons.mp hl
    have e : linesFrom cur (c :: (l ++ 10 :: rest)) = linesFrom (c :: cur) (l ++ 10 :: rest) := by
      cases cur <;> simp [linesFrom, hc]
    rw [List.cons_append, e, ih hl]
    simp

theorem lines_replicate {l : Bytes} (hl : ∀ c ∈ l, c ≠ 10) (n : Nat) :
    lines (List.replicate n (l ++ [10])).flatten = List.replicate n (chopCr l) := by
  induction n with
  | zero => rfl
  | succ n ih =>
    rw [List.replicate_succ, List.flatten_cons, List.append_assoc, List.replicate_succ, ← ih]
    exact linesFrom_line hl [] _

/-- A rules file of one line many times. -/
theorem parseRules_replicate {l : Bytes} {r : Rule} (hl : ∀ c ∈ l, c ≠ 10)
    (hr : ∀ i, parseLine i (chopCr l) = .ok (some r)) (n : Nat) :
    parseRules (List.replicate n (l ++ [10])).flatten = (List.replicate n r, none) := by
  rw [parseRules, lines_replicate hl]
  have hgen : ∀ f : List Rule × Option Bytes → Bytes × Nat → List Rule × Option Bytes,
      (∀ rules i, f (rules, none) (chopCr l, i) = (rules ++ [r], none)) → ∀ k rules,
        ((List.replicate n (chopCr l)).zipIdx k).foldl f (rules, none) = (rules ++ List.replicate n r, none) := by
    intro f hf
    induction n with
    | zero => simp
    | succ n ih =>
      intro k rules
      rw [List.replicate_succ, List.zipIdx_cons, List.foldl_cons, hf, ih, List.replicate_succ, List.append_assoc]
      rfl
  exact hgen _ (fun rules i => by simp only [hr]) 0 []

def mayLine : Bytes := lit "hedge\t-1\tmay"

def mayRule : Rule :=
  { kindStr := lit "hedge", phrase := lit "may", weight := -1, kind := .hedge, cat := .none }

/-- A rules file with as many hedges as an `int16_t` has not. -/
def manyHedges : Bytes := (List.replicate 32768 (mayLine ++ [10])).flatten

theorem nStates_build (sc : Scorer) :
    sc.build.nStates = (Trie.ofWords (sc.rules.map fun r => (normalise r.phrase).map kClass)).size := by
  show (Trie.ofWords ((sc.rules.map fun r => normalise r.phrase).map (·.map kClass))).size = _
  rw [List.map_map]
  rfl

theorem loadRules_manyHedges : (loadRules {} manyHedges).1 = .ok () ∧
    (loadRules {} manyHedges).2.rules = List.replicate 32768 mayRule := by
  have hparse : parseRules manyHedges = (List.replicate 32768 mayRule, none) := by
    have hline : mayLine.all (· != 10) = true := by
      rw [show mayLine = _ from lit_ofList _]
      rfl
    exact parseRules_replicate (fun c hc => bne_iff_ne.mp (List.all_eq_true.mp hline c hc)) (fun _ => rfl) 32768
  have hstates : ¬ 65535 ≤ (build { ({} : Scorer) with rules := List.replicate 32768 mayRule }).nStates := by
    rw [nStates_build, List.map_replicate, size_replicate _ (by decide)]
    decide
  have hrules : ¬ 65535 ≤ (List.replicate 32768 mayRule).length := by
    rw [List.length_replicate]
    decide
  rw [loadRules, hparse]
  dsimp only
  rw [if_neg hrules, if_neg hstates]
  exact ⟨rfl, rfl⟩

theorem many_found :
    (found (occurs (lit "may")) (occurs []) (List.replicate 32768 mayRule) .hedge).length = 32768 := by
  have hmay : occurs (lit "may") mayRule = true := by
    rw [occurs, mayRule, show lit "may" = _ from lit_ofList _]
    decide
  have hpos : (decide (mayRule.kind = .hedge) && (occurs (lit "may") mayRule || occurs [] mayRule)) = true := by
    rw [hmay]
    rfl
  rw [found, List.filter_replicate_of_pos (by exact hpos), List.length_replicate]

theorem hedges_of {sc : Scorer} (hacc : sc.Accepted) (hrules : sc.rules = List.replicate 32768 mayRule) :
    (sc.scoreText (F := ℚ) [] (lit "may") []).1.hedges = -32768 := by
  obtain ⟨hruled, -, -⟩ := hacc.scoreText_spec (F := ℚ) clear_nil (lit "may") []
  have hhedges := congrArg Ruled.hedges hruled
  simp only [ruled, formula, hrules, many_found] at hhedges
  rw [hhedges]
  decide

/-- The count of the hedges goes round. -/
theorem hedges_wrap :
    (loadRules {} manyHedges).2.Accepted ∧
      (found (occurs (lit "may")) (occurs []) (loadRules {} manyHedges).2.rules .hedge).length = 32768 ∧
      ((loadRules {} manyHedges).2.scoreText (F := ℚ) [] (lit "may") []).1.hedges = -32768 := by
  obtain ⟨hok, hrules⟩ := loadRules_manyHedges
  have hacc : (loadRules {} manyHedges).2.Accepted := ⟨{}, manyHedges, hok, rfl⟩
  refine ⟨hacc, ?_, hedges_of hacc hrules⟩
  rw [hrules]
  exact many_found

/-- One hedge less is counted right. -/
example : wrap16 32767 = 32767 := by decide +kernel

end Scorer

end Stok
