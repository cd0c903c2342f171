import Stok.Lib.SelfSync
import Stok.Util.Text

/-!
# UTF-8

The texts of UTF-8 are those of a self-synchronising code, whose words are the encodings of the
characters. `append_utf8` also encodes the surrogates, which are no characters.
-/

namespace Stok

open Lib.SelfSync

/-- The encodings of a list of characters, one after the other. -/
def ValidUtf8 (s : Bytes) : Prop := ∃ cs : List Char, s = cs.flatMap String.utf8EncodeChar

theorem isCont_iff (c : UInt8) : isCont c = true ↔ 0x80 ≤ c.toNat ∧ c.toNat < 0xC0 := by
  have h : ∀ n < 256, isCont (.ofNat n) = decide (0x80 ≤ n ∧ n < 0xC0) := by decide +kernel
  have := h c.toNat c.toNat_lt
  rw [UInt8.ofNat_toNat] at this
  rw [this, decide_eq_true_iff]

theorem isCont_eq_false_iff (c : UInt8) : isCont c = false ↔ c.toNat < 0x80 ∨ 0xC0 ≤ c.toNat := by
  rw [← Bool.not_eq_true, isCont_iff]
  omega

theorem char_lt (c : Char) : c.toNat < 0x110000 := by
  rcases c.valid with h | h
  · exact h.trans (by decide)
  · exact h.2

namespace Text

theorem utf8_eq_encode (c : Char) : utf8 c.toNat = String.utf8EncodeChar c := by
  have hc := char_lt c
  have hval : c.val.toNat = c.toNat := rfl
  unfold utf8 String.utf8EncodeChar
  rw [hval]
  generalize c.toNat = n at hc
  dsimp only
  -- both make the same cases, the bounds written another way
  simp only [← Nat.lt_succ_iff, Nat.succ_eq_add_one, Nat.reduceAdd, if_pos hc]
  split
  · rfl
  · split
    · rw [Nat.mod_eq_of_lt (by omega : n / 64 < 0x20), Nat.add_comm 0xC0, Nat.add_comm 0x80]
    · split
      · rw [Nat.mod_eq_of_lt (by omega : n / 4096 < 0x10), Nat.add_comm 0xE0, Nat.add_comm 0x80,
          Nat.add_comm 0x80]
      · rw [Nat.mod_eq_of_lt (by omega : n / 262144 < 0x08), Nat.add_comm 0xF0, Nat.add_comm 0x80,
          Nat.add_comm 0x80, Nat.add_comm 0x80]

/-- How many bytes follow the first one of an encoding. -/
def followers (b : UInt8) : Nat :=
  if b.toNat < 0xC0 then 0 else if b.toNat < 0xE0 then 1 else if b.toNat < 0xF0 then 2 else 3

theorem toNat_ofNat {n : Nat} (h : n < 256) : (UInt8.ofNat n).toNat = n := by
  rw [UInt8.toNat_ofNat', Nat.mod_eq_of_lt h]

theorem isCont_six (n : Nat) : isCont (.ofNat (0x80 + n % 64)) = true := by
  rw [isCont_iff, toNat_ofNat (by omega)]
  omega

theorem utf8_shape {cp : Nat} (h : cp < 0x110000) :
    ∃ b t, utf8 cp = b :: t ∧ isCont b = false ∧ (∀ c ∈ t, isCont c = true) ∧ t.length = followers b := by
  unfold utf8
  rcases Nat.lt_or_ge cp 0x80 with h1 | h1
  · rw [if_pos h1]
    refine ⟨_, [], rfl, ?_, nofun, ?_⟩
    · rw [isCont_eq_false_iff, toNat_ofNat (by omega)]
      omega
    · rw [followers, toNat_ofNat (by omega), if_pos (by omega), List.length_nil]
  rw [if_neg (show ¬ cp < 0x80 by omega)]
  rcases Nat.lt_or_ge cp 0x800 with h2 | h2
  · rw [if_pos h2]
    refine ⟨_, _, rfl, ?_, ?_, ?_⟩
    · rw [isCont_eq_false_iff, toNat_ofNat (by omega)]
      omega
    · simp only [List.mem_cons, List.not_mem_nil, or_false, forall_eq, isCont_six]
    · rw [followers, toNat_ofNat (by omega), if_neg (by omega), if_pos (by omega)]
      rfl
  rw [if_neg (show ¬ cp < 0x800 by omega)]
  rcases Nat.lt_or_ge cp 0x10000 with h3 | h3
  · rw [if_pos h3]
    refine ⟨_, _, rfl, ?_, ?_, ?_⟩
    · rw [isCont_eq_false_iff, toNat_ofNat (by omega)]
      omega
    · simp only [List.mem_cons, List.not_mem_nil, or_false, forall_eq_or_imp, forall_eq, isCont_six,
        and_self]
    · rw [followers, toNat_ofNat (by omega), if_neg (by omega), if_neg (by omega), if_pos (by omega)]
      rfl
  · rw [if_neg (show ¬ cp < 0x10000 by omega), if_pos h]
    refine ⟨_, _, rfl, ?_, ?_, ?_⟩
    · rw [isCont_eq_false_iff, toNat_ofNat (by omega)]
      omega
    · simp only [List.mem_cons, List.not_mem_nil, or_false, forall_eq_or_imp, forall_eq, isCont_six,
        and_self]
    · rw [followers, toNat_ofNat (by omega), if_neg (by omega), if_neg (by omega), if_neg (by omega)]
      rfl

/-- The encoding of a surrogate. -/
def surrogate : Bytes → Bool
  | [a, b, _] => a == 0xED && 0xA0 ≤ b.toNat
  | _ => false

theorem surrogate_utf8 {cp : Nat} (h : cp < 0x110000) :
    surrogate (utf8 cp) = true ↔ 0xD800 ≤ cp ∧ cp < 0xE000 := by
  unfold utf8
  rcases Nat.lt_or_ge cp 0x80 with h1 | h1
  · rw [if_pos h1]
    exact ⟨nofun, by omega⟩
  rw [if_neg (show ¬ cp < 0x80 by omega)]
  rcases Nat.lt_or_ge cp 0x800 with h2 | h2
  · rw [if_pos h2]
    exact ⟨nofun, by omega⟩
  rw [if_neg (show ¬ cp < 0x800 by omega)]
  rcases Nat.lt_or_ge cp 0x10000 with h3 | h3
  · rw [if_pos h3, surrogate, Bool.and_eq_true, beq_iff_eq, decide_eq_true_iff, ← UInt8.toNat_inj,
      toNat_ofNat (by omega), toNat_ofNat (by omega)]
    change 0xE0 + cp / 4096 = 0xED ∧ _ ↔ _
    omega
  · rw [if_neg (show ¬ cp < 0x10000 by omega), if_pos h]
    exact ⟨nofun, by omega⟩

end Text

/-- UTF-8 as a code. -/
def utf8Code : Code UInt8 where
  cont := isCont
  word w := ∃ c : Char, w = String.utf8EncodeChar c
  shape := by
    rintro w ⟨c, rfl⟩
    obtain ⟨b, t, h, hb, ht, -⟩ := Text.utf8_shape (char_lt c)
    exact ⟨b, t, Text.utf8_eq_encode c ▸ h, hb, ht⟩
  prefixFree := by
    rintro w t ⟨c, rfl⟩ ⟨d, hd⟩
    obtain ⟨b, u, hc, -, -, hu⟩ := Text.utf8_shape (char_lt c)
    obtain ⟨b', u', hd', -, -, hu'⟩ := Text.utf8_shape (char_lt d)
    rw [Text.utf8_eq_encode] at hc hd'
    rw [hc, hd', List.cons_append] at hd
    obtain ⟨rfl, rfl⟩ := List.cons.inj hd
    rw [List.length_append] at hu'
    exact List.length_eq_zero_iff.mp (by omega)

theorem validUtf8_iff {s : Bytes} : ValidUtf8 s ↔ utf8Code.Text s := by
  constructor
  · rintro ⟨cs, rfl⟩
    induction cs with
    | nil => exact .nil
    | cons c cs ih =>
      rw [List.flatMap_cons]
      exact .cons ⟨c, rfl⟩ ih
  · intro h
    induction h with
    | nil => exact ⟨[], rfl⟩
    | cons hw _ ih =>
      obtain ⟨c, rfl⟩ := hw
      obtain ⟨cs, rfl⟩ := ih
      exact ⟨c :: cs, rfl⟩

theorem text_utf8_iff {cp : Nat} (h : cp < 0x110000) :
    utf8Code.Text (Text.utf8 cp) ↔ Text.surrogate (Text.utf8 cp) = false := by
  rw [← Bool.not_eq_true, Text.surrogate_utf8 h]
  constructor
  · intro ht hr
    obtain ⟨b, t, he, -, hcont, -⟩ := Text.utf8_shape h
    rw [he] at ht
    refine Code.not_text_of_not_word hcont ?_ ht
    rintro ⟨c, hc⟩
    rw [← he, ← Text.utf8_eq_encode] at hc
    have hs := (Text.surrogate_utf8 (char_lt c)).mp (hc ▸ (Text.surrogate_utf8 h).mpr hr)
    rcases c.valid with hv | hv
    · exact absurd hs.1 (Nat.not_le.mpr hv)
    · exact absurd hs.2 (Nat.not_lt.mpr hv.1)
  · intro hr
    have hv : cp.isValidChar := by
      rcases Nat.lt_or_ge cp 0xD800 with h1 | h1
      · exact .inl h1
      · exact .inr ⟨by omega, h⟩
    have hc : (Char.ofNatAux cp hv).toNat = cp := by
      rfl
    refine Code.text_word ⟨Char.ofNatAux cp hv, ?_⟩
    rw [← Text.utf8_eq_encode, hc]

theorem text_ascii {c : UInt8} (h : c.toNat < 0x80) : utf8Code.Text [c] := by
  have hw : Text.utf8 c.toNat = [c] := by
    rw [Text.utf8, if_pos h, UInt8.ofNat_toNat]
  have := text_utf8_iff (show c.toNat < 0x110000 by omega)
  rw [hw] at this
  exact this.mpr rfl

theorem starts_ascii {c : UInt8} {s : Bytes} (h : c.toNat < 0x80) : utf8Code.Starts (c :: s) :=
  Code.starts_cons.mpr ((isCont_eq_false_iff c).mpr (.inl h))

/-- A text falls apart at a byte of ASCII. -/
theorem text_append_ascii {a b : Bytes} {c : UInt8} (h : c.toNat < 0x80) :
    utf8Code.Text (a ++ c :: b) ↔ utf8Code.Text a ∧ utf8Code.Text b := by
  rw [Code.text_append_iff (starts_ascii h), ← List.singleton_append]
  exact and_congr_right fun _ => ⟨(text_ascii h).right, (text_ascii h).append⟩

theorem text_all_ascii {s : Bytes} (h : ∀ c ∈ s, c.toNat < 0x80) : utf8Code.Text s := by
  induction s with
  | nil => exact .nil
  | cons c s ih =>
    exact (text_ascii (h c List.mem_cons_self)).append (ih fun d hd => h d (List.mem_cons_of_mem c hd))

theorem text_append_all_ascii {a b : Bytes} (h : ∀ c ∈ b, c.toNat < 0x80) :
    utf8Code.Text (a ++ b) ↔ utf8Code.Text a := by
  cases b with
  | nil => rw [List.append_nil]
  | cons c b =>
    rw [text_append_ascii (h c List.mem_cons_self), and_iff_left]
    exact text_all_ascii fun d hd => h d (List.mem_cons_of_mem c hd)

/-! ## Cuts -/

theorem getElem?_isCont {s : Bytes} {n : Nat} (h : isCont (byteAt s n) = false) :
    ∀ c, s[n]? = some c → utf8Code.cont c = false := by
  intro c hc
  rwa [byteAt, List.getD_eq_getElem?_getD, hc] at h

theorem utf8Cut_boundary (s : Bytes) (n : Nat) :
    utf8Cut s n = 0 ∨ isCont (byteAt s (utf8Cut s n)) = false := by
  induction n with
  | zero => exact .inl rfl
  | succ n ih =>
    rw [utf8Cut]
    split
    · exact ih
    · exact .inr (Bool.not_eq_true _ ▸ ‹_›)

theorem text_take_utf8Cut {s : Bytes} (h : utf8Code.Text s) (n : Nat) :
    utf8Code.Text (s.take (utf8Cut s n)) := by
  rcases utf8Cut_boundary s n with h0 | hb
  · rw [h0, List.take_zero]
    exact .nil
  · exact (Code.text_take_iff h _).mpr (getElem?_isCont hb)

theorem text_assign {N : Nat} (hN : 0 < N) {s : Bytes} (h : utf8Code.Text s) :
    utf8Code.Text (FixedStr.assign hN s).bytes := by
  change utf8Code.Text (s.take (FixedStr.cut s (N - 1)))
  unfold FixedStr.cut
  split
  · rwa [List.take_length]
  · exact text_take_utf8Cut h _

/-- A cut inside the last word goes back to where it begins. -/
theorem utf8Cut_word {a t : Bytes} {b : UInt8} (hb : isCont b = false) (ht : ∀ c ∈ t, isCont c = true)
    {n : Nat} (h1 : a.length ≤ n) (h2 : n ≤ a.length + t.length) :
    utf8Cut (a ++ b :: t) n = a.length := by
  obtain ⟨k, rfl⟩ := Nat.exists_eq_add_of_le h1
  induction k with
  | zero =>
    rw [Nat.add_zero]
    cases ha : a.length with
    | zero => rfl
    | succ m =>
      have : byteAt (a ++ b :: t) (m + 1) = b := by
        rw [byteAt, List.getD_eq_getElem?_getD, ← ha, List.getElem?_append_right le_rfl, Nat.sub_self]
        rfl
      rw [utf8Cut, this, hb, if_neg Bool.false_ne_true]
  | succ k ih =>
    have hk : k < t.length := by omega
    have : byteAt (a ++ b :: t) (a.length + k + 1) = t[k] := by
      rw [byteAt, List.getD_eq_getElem?_getD, List.getElem?_append_right (by omega),
        show a.length + k + 1 - a.length = k + 1 by omega, List.getElem?_cons_succ,
        List.getElem?_eq_getElem hk]
      rfl
    rw [← Nat.add_assoc, utf8Cut, this, ht _ (List.getElem_mem hk), if_pos rfl]
    exact ih (by omega) (by omega)

/-! ## Trimming -/

theorem isSpace_ascii {c : UInt8} (h : isSpace c = true) : c.toNat < 0x80 := by
  simp only [isSpace, Bool.or_eq_true, beq_iff_eq] at h
  rcases h with ((((rfl | rfl) | rfl) | rfl) | rfl) | rfl <;> decide

theorem text_trim_iff (s : Bytes) : utf8Code.Text (trim s) ↔ utf8Code.Text s := by
  have hfront : utf8Code.Text (s.dropWhile isSpace) ↔ utf8Code.Text s := by
    have h := List.takeWhile_append_dropWhile (p := isSpace) (l := s)
    have hall : utf8Code.Text (s.takeWhile isSpace) :=
      text_all_ascii fun c hc => isSpace_ascii (List.mem_takeWhile_imp hc)
    conv_rhs => rw [← h]
    exact ⟨hall.append, hall.right⟩
  rw [← hfront, trim]
  generalize s.dropWhile isSpace = u
  have h := List.takeWhile_append_dropWhile (p := isSpace) (l := u.reverse)
  have hu : u = (u.reverse.dropWhile isSpace).reverse ++ (u.reverse.takeWhile isSpace).reverse := by
    rw [← List.reverse_append, h, List.reverse_reverse]
  conv_rhs => rw [hu]
  refine (text_append_all_ascii fun c hc => ?_).symm
  exact isSpace_ascii (List.mem_takeWhile_imp (List.mem_reverse.mp hc))

end Stok
