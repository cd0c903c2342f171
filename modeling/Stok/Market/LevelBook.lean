import Stok.Core.Word

/-!
# Price ladders (`market/level_book.hpp`)

One side of a book is a list of levels from worst to best. `Holds bid l t` says
that the ladder `l` stands for the map `t` from prices to quantities: it is
strictly sorted, a level has the quantity of its price, and the prices that have a
level are those with a positive quantity. `add` and `remove` keep that.
-/

namespace Stok

structure Level where
  price : UInt32
  qty : UInt64
  deriving Repr, DecidableEq

abbrev Ladder := List Level

namespace Ladder

/-- Price `a` is worse than price `b` on this side. -/
def worse (bid : Bool) (a b : UInt32) : Prop := if bid then a < b else b < a

instance (bid : Bool) (a b : UInt32) : Decidable (worse bid a b) :=
  inferInstanceAs (Decidable (if bid then a < b else b < a))

/-- Add at the first level that is not worse than `price`, found by `position`. -/
def addAt (bid : Bool) (price : UInt32) (qty : UInt64) : Ladder → Ladder
  | [] => [⟨price, qty⟩]
  | e :: l =>
    if worse bid e.price price then e :: addAt bid price qty l
    else if e.price = price then { e with qty := e.qty + qty } :: l
    else ⟨price, qty⟩ :: e :: l

def add (bid : Bool) (l : Ladder) (price : UInt32) (qty : UInt64) : Ladder :=
  if qty = 0 then l else addAt bid price qty l

/-- Remove at the first level that is not worse than `price`, found by `position`. -/
def removeAt (bid : Bool) (price : UInt32) (qty : UInt64) : Ladder → Ladder
  | [] => []
  | e :: l =>
    if worse bid e.price price then e :: removeAt bid price qty l
    else if e.price ≠ price then e :: l
    else if qty ≥ e.qty then l
    else { e with qty := e.qty - qty } :: l

/-- Removes up to `qty` at `price`; drops the level when it empties. The touch is tried first. -/
def remove (bid : Bool) (l : Ladder) (price : UInt32) (qty : UInt64) : Ladder :=
  if qty = 0 then l
  else match l.getLast? with
    | none => l
    | some e =>
      if e.price = price then
        if qty ≥ e.qty then l.dropLast else l.dropLast ++ [{ e with qty := e.qty - qty }]
      else removeAt bid price qty l

def bestPrice (l : Ladder) : UInt32 := match l.getLast? with
  | none => 0
  | some e => e.price

def bestQty (l : Ladder) : UInt64 := match l.getLast? with
  | none => 0
  | some e => e.qty

/-- The quantity at a price. -/
def qtyAt (l : Ladder) (price : UInt32) : UInt64 :=
  match l with
  | [] => 0
  | e :: l => if e.price = price then e.qty else qtyAt l price

/-! ## Order of prices -/

variable {bid : Bool}

theorem worse_irrefl (a : UInt32) : ¬ worse bid a a := by
  cases bid <;> simp [worse]

theorem worse_trans {a b c : UInt32} (h1 : worse bid a b) (h2 : worse bid b c) : worse bid a c := by
  cases bid
  · exact UInt32.lt_trans h2 h1
  · exact UInt32.lt_trans h1 h2

theorem worse_of_not {a b : UInt32} (h : ¬ worse bid a b) (hne : a ≠ b) : worse bid b a := by
  cases bid
  · exact UInt32.lt_of_le_of_ne (UInt32.not_lt.1 h) hne
  · exact UInt32.lt_of_le_of_ne (UInt32.not_lt.1 h) hne.symm

/-- Strictly sorted from worst to best. -/
def Sorted (bid : Bool) (l : Ladder) : Prop := l.Pairwise fun a b => worse bid a.price b.price

theorem Sorted.price_ne {e : Level} {l : Ladder} (h : Sorted bid (e :: l)) {x : Level}
    (hx : x ∈ l) : x.price ≠ e.price := by
  intro heq
  have hw := (List.pairwise_cons.1 h).1 x hx
  rw [heq] at hw
  exact worse_irrefl _ hw

theorem qtyAt_eq_zero {l : Ladder} {p : UInt32} (h : ∀ x ∈ l, x.price ≠ p) : qtyAt l p = 0 := by
  induction l with
  | nil => rfl
  | cons e l ih =>
    rw [qtyAt, if_neg (h e List.mem_cons_self)]
    exact ih fun x hx => h x (List.mem_cons_of_mem _ hx)

/-- Prices beyond a level that is not worse than `p` differ from `p`. -/
theorem Sorted.ne_of_not_worse {e : Level} {l : Ladder} {p : UInt32} (h : Sorted bid (e :: l))
    (hw : ¬ worse bid e.price p) : ∀ x ∈ l, x.price ≠ p := by
  intro x hx heq
  have := (List.pairwise_cons.1 h).1 x hx
  rw [heq] at this
  exact hw this

/-! ## Adding and removing -/

theorem mem_addAt {p : UInt32} {q : UInt64} : ∀ {l : Ladder}, Sorted bid l → ∀ {x : Level},
    x ∈ addAt bid p q l ↔ (x ∈ l ∧ x.price ≠ p) ∨ x = ⟨p, qtyAt l p + q⟩
  | [], _, x => by simp [addAt, qtyAt]
  | e :: l, h, x => by
    have hl : Sorted bid l := (List.pairwise_cons.1 h).2
    rw [addAt]
    split
    · next hw =>
      have hne : e.price ≠ p := fun heq => worse_irrefl _ (heq ▸ hw)
      rw [List.mem_cons, mem_addAt hl, qtyAt, if_neg hne, List.mem_cons]
      constructor
      · rintro (rfl | ⟨hx, hxp⟩ | hx)
        · exact .inl ⟨.inl rfl, hne⟩
        · exact .inl ⟨.inr hx, hxp⟩
        · exact .inr hx
      · rintro (⟨rfl | hx, hxp⟩ | hx)
        · exact .inl rfl
        · exact .inr (.inl ⟨hx, hxp⟩)
        · exact .inr (.inr hx)
    · next hw =>
      have hrest := h.ne_of_not_worse hw
      split
      · next heq =>
        rw [qtyAt, if_pos heq, List.mem_cons, List.mem_cons, heq]
        constructor
        · rintro (rfl | hx)
          · exact .inr rfl
          · exact .inl ⟨.inr hx, hrest x hx⟩
        · rintro (⟨rfl | hx, hxp⟩ | rfl)
          · exact absurd heq hxp
          · exact .inr hx
          · exact .inl rfl
      · next hne =>
        have h0 : qtyAt (e :: l) p = 0 := by
          refine qtyAt_eq_zero fun y hy => ?_
          rcases List.mem_cons.1 hy with rfl | hy
          · exact hne
          · exact hrest y hy
        rw [h0, UInt64.zero_add, List.mem_cons]
        constructor
        · rintro (hx | hx)
          · exact .inr hx
          · rcases List.mem_cons.1 hx with rfl | hx'
            · exact .inl ⟨hx, hne⟩
            · exact .inl ⟨hx, hrest x hx'⟩
        · rintro (hx | hx)
          · exact .inr hx.1
          · exact .inl hx

theorem Sorted.addAt {p : UInt32} {q : UInt64} : ∀ {l : Ladder}, Sorted bid l →
    Sorted bid (addAt bid p q l)
  | [], _ => List.pairwise_singleton _ _
  | e :: l, h => by
    have ⟨he, hl⟩ := List.pairwise_cons.1 h
    rw [Ladder.addAt]
    split
    · next hw =>
      refine List.pairwise_cons.2 ⟨fun x hx => ?_, Sorted.addAt hl⟩
      rcases (mem_addAt hl).1 hx with ⟨hx, -⟩ | rfl
      · exact he x hx
      · exact hw
    · next hw =>
      split
      · exact List.pairwise_cons.2 ⟨he, hl⟩
      · next hne =>
        have hpe := worse_of_not hw hne
        refine List.pairwise_cons.2 ⟨fun x hx => ?_, h⟩
        rcases List.mem_cons.1 hx with rfl | hx
        · exact hpe
        · exact worse_trans hpe (he x hx)

theorem mem_removeAt {p : UInt32} {q : UInt64} : ∀ {l : Ladder}, Sorted bid l → ∀ {x : Level},
    x ∈ removeAt bid p q l ↔
      (x ∈ l ∧ x.price ≠ p) ∨ (q < qtyAt l p ∧ x = ⟨p, qtyAt l p - q⟩)
  | [], _, x => by simp [removeAt, qtyAt]
  | e :: l, h, x => by
    have hl : Sorted bid l := (List.pairwise_cons.1 h).2
    rw [removeAt]
    split
    · next hw =>
      have hne : e.price ≠ p := fun heq => worse_irrefl _ (heq ▸ hw)
      rw [List.mem_cons, mem_removeAt hl, qtyAt, if_neg hne, List.mem_cons]
      constructor
      · rintro (rfl | ⟨hx, hxp⟩ | hx)
        · exact .inl ⟨.inl rfl, hne⟩
        · exact .inl ⟨.inr hx, hxp⟩
        · exact .inr hx
      · rintro (⟨rfl | hx, hxp⟩ | hx)
        · exact .inl rfl
        · exact .inr (.inl ⟨hx, hxp⟩)
        · exact .inr (.inr hx)
    · next hw =>
      have hrest := h.ne_of_not_worse hw
      split
      · next hne =>
        have hall : ∀ y ∈ e :: l, y.price ≠ p := by
          intro y hy
          rcases List.mem_cons.1 hy with rfl | hy
          · exact hne
          · exact hrest y hy
        rw [qtyAt_eq_zero hall]
        constructor
        · exact fun hx => .inl ⟨hx, hall x hx⟩
        · rintro (hx | ⟨h0, -⟩)
          · exact hx.1
          · exact absurd h0 UInt64.not_lt_zero
      · next heq =>
        have heq : e.price = p := not_not.1 heq
        rw [qtyAt, if_pos heq]
        split
        · next hq =>
          constructor
          · exact fun hx => .inl ⟨List.mem_cons_of_mem _ hx, hrest x hx⟩
          · rintro (⟨hx, hxp⟩ | ⟨hlt, -⟩)
            · rcases List.mem_cons.1 hx with rfl | hx
              · exact absurd heq hxp
              · exact hx
            · exact absurd hlt (UInt64.not_lt.2 hq)
        · next hq =>
          rw [List.mem_cons, List.mem_cons, heq]
          constructor
          · rintro (rfl | hx)
            · exact .inr ⟨UInt64.not_le.1 hq, rfl⟩
            · exact .inl ⟨.inr hx, hrest x hx⟩
          · rintro (⟨rfl | hx, hxp⟩ | ⟨-, rfl⟩)
            · exact absurd heq hxp
            · exact .inr hx
            · exact .inl rfl

theorem Sorted.removeAt {p : UInt32} {q : UInt64} : ∀ {l : Ladder}, Sorted bid l →
    Sorted bid (removeAt bid p q l)
  | [], _ => List.Pairwise.nil
  | e :: l, h => by
    have ⟨he, hl⟩ := List.pairwise_cons.1 h
    rw [Ladder.removeAt]
    split
    · next hw =>
      refine List.pairwise_cons.2 ⟨fun x hx => ?_, Sorted.removeAt hl⟩
      rcases (mem_removeAt hl).1 hx with ⟨hx, -⟩ | ⟨-, rfl⟩
      · exact he x hx
      · exact hw
    · split
      · exact h
      · split
        · exact hl
        · exact List.pairwise_cons.2 ⟨he, hl⟩

/-- The touch is where a sorted ladder would look anyway. -/
theorem Sorted.remove_eq {p : UInt32} {q : UInt64} (hq : q ≠ 0) : ∀ {l : Ladder}, Sorted bid l →
    remove bid l p q = Ladder.removeAt bid p q l
  | [], _ => by simp [remove, Ladder.removeAt, hq]
  | [e], _ => by
    simp only [remove, Ladder.removeAt, hq, if_false, List.getLast?_singleton]
    by_cases he : e.price = p
    · subst he
      simp [worse_irrefl]
    · simp [he]
  | e :: e' :: l, h => by
    have ⟨he, hl⟩ := List.pairwise_cons.1 h
    have ih := Sorted.remove_eq (p := p) hq hl
    simp only [remove, hq, if_false, List.getLast?_cons_cons] at ih ⊢
    obtain ⟨z, hz⟩ : ∃ z, (e' :: l).getLast? = some z :=
      ⟨_, List.getLast?_eq_some_getLast (List.cons_ne_nil _ _)⟩
    rw [hz] at ih ⊢
    dsimp only at ih ⊢
    split
    · next hzp =>
      have hw : worse bid e.price p := hzp ▸ he z (List.mem_of_getLast? hz)
      rw [if_pos hzp] at ih
      rw [Ladder.removeAt, if_pos hw, ← ih]
      split <;> simp
    · rfl

/-! ## The map a ladder stands for -/

structure Holds (bid : Bool) (l : Ladder) (t : UInt32 → Nat) : Prop where
  sorted : Sorted bid l
  qty : ∀ e ∈ l, e.qty.toNat = t e.price ∧ 0 < t e.price
  present : ∀ p, 0 < t p → ∃ e ∈ l, e.price = p

theorem Holds.nil : Holds bid [] fun _ => 0 :=
  ⟨List.Pairwise.nil, fun _ he => (List.not_mem_nil he).elim, fun _ h => absurd h (Nat.lt_irrefl 0)⟩

theorem Sorted.qtyAt_mem {e : Level} : ∀ {l : Ladder}, Sorted bid l → e ∈ l →
    qtyAt l e.price = e.qty
  | a :: l, h, he => by
    rw [qtyAt]
    rcases List.mem_cons.1 he with rfl | he
    · rw [if_pos rfl]
    · rw [if_neg (h.price_ne he).symm]
      exact Sorted.qtyAt_mem (List.pairwise_cons.1 h).2 he

theorem Holds.qtyAt {l : Ladder} {t : UInt32 → Nat} (h : Holds bid l t) (p : UInt32) :
    (qtyAt l p).toNat = t p := by
  rcases Nat.eq_zero_or_pos (t p) with h0 | hp
  · rw [qtyAt_eq_zero, h0]
    · rfl
    · rintro x hx rfl
      exact absurd (h.qty x hx).2 (by omega)
  · obtain ⟨e, he, rfl⟩ := h.present p hp
    rw [h.sorted.qtyAt_mem he]
    exact (h.qty e he).1

theorem Holds.add {l : Ladder} {t : UInt32 → Nat} (h : Holds bid l t) {p : UInt32} {q : UInt64}
    (hlt : t p + q.toNat < 2 ^ 64) :
    Holds bid (add bid l p q) (Function.update t p (t p + q.toNat)) := by
  unfold Ladder.add
  split
  · next h0 =>
    rw [h0, UInt64.toNat_zero, Nat.add_zero, Function.update_eq_self]
    exact h
  · next h0 =>
    have hq : 0 < q.toNat := Nat.pos_of_ne_zero fun e => h0 (UInt64.toNat_inj.1 e)
    refine ⟨h.sorted.addAt, fun e he => ?_, fun p' hp' => ?_⟩
    · rcases (mem_addAt h.sorted).1 he with ⟨he, hne⟩ | rfl
      · rw [Function.update_of_ne hne]
        exact h.qty e he
      · rw [Function.update_self, UInt64.toNat_add, h.qtyAt, Nat.mod_eq_of_lt hlt]
        exact ⟨rfl, by omega⟩
    · rcases eq_or_ne p' p with rfl | hne
      · exact ⟨_, (mem_addAt h.sorted).2 (.inr rfl), rfl⟩
      · rw [Function.update_of_ne hne] at hp'
        obtain ⟨e, he, rfl⟩ := h.present p' hp'
        exact ⟨e, (mem_addAt h.sorted).2 (.inl ⟨he, hne⟩), rfl⟩

theorem Holds.remove {l : Ladder} {t : UInt32 → Nat} (h : Holds bid l t) (p : UInt32) (q : UInt64) :
    Holds bid (remove bid l p q) (Function.update t p (t p - q.toNat)) := by
  rcases eq_or_ne q 0 with rfl | h0
  · rw [UInt64.toNat_zero, Nat.sub_zero, Function.update_eq_self, Ladder.remove, if_pos rfl]
    exact h
  · rw [h.sorted.remove_eq h0]
    have hqty := h.qtyAt p
    have hlt : q < Ladder.qtyAt l p ↔ q.toNat < t p := by rw [UInt64.lt_iff_toNat_lt, hqty]
    refine ⟨h.sorted.removeAt, fun e he => ?_, fun p' hp' => ?_⟩
    · rcases (mem_removeAt h.sorted).1 he with ⟨he, hne⟩ | ⟨hq, rfl⟩
      · rw [Function.update_of_ne hne]
        exact h.qty e he
      · rw [Function.update_self, UInt64.toNat_sub_of_le _ _ (UInt64.le_of_lt hq), hqty]
        rw [hlt] at hq
        exact ⟨rfl, by omega⟩
    · rcases eq_or_ne p' p with rfl | hne
      · rw [Function.update_self] at hp'
        exact ⟨_, (mem_removeAt h.sorted).2 (.inr ⟨hlt.2 (by omega), rfl⟩), rfl⟩
      · rw [Function.update_of_ne hne] at hp'
        obtain ⟨e, he, rfl⟩ := h.present p' hp'
        exact ⟨e, (mem_removeAt h.sorted).2 (.inl ⟨he, hne⟩), rfl⟩

end Ladder

/-- The two ladders of a symbol and the top of book last published. -/
structure LevelBook where
  bids : Ladder := []
  asks : Ladder := []
  pubBid : UInt32 := 0
  pubAsk : UInt32 := 0
  pubBidQ : UInt64 := 0
  pubAskQ : UInt64 := 0
  deriving Repr, DecidableEq

namespace LevelBook

def side (b : LevelBook) (bid : Bool) : Ladder := if bid then b.bids else b.asks

def setSide (b : LevelBook) (bid : Bool) (l : Ladder) : LevelBook :=
  if bid then { b with bids := l } else { b with asks := l }

@[simp] theorem side_setSide (b : LevelBook) (bid : Bool) (l : Ladder) :
    (b.setSide bid l).side bid = l := by
  cases bid <;> rfl

@[simp] theorem side_setSide_not (b : LevelBook) (bid : Bool) (l : Ladder) :
    (b.setSide bid l).side (!bid) = b.side (!bid) := by
  cases bid <;> rfl

end LevelBook

end Stok
