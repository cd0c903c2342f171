import Mathlib.Data.List.TakeWhile
import Stok.Core.Dbl

/-!
# Decimal text

The digits of a number read back as the number (`fromChars_intText`), and a decimal of at
most 47 bytes is within the range of a `double` (`fromCharsDbl_isSome`).
-/

namespace Stok

theorem parseInt_bounds {lo hi : Int} {s : Bytes} {v : Int} (h : parseInt lo hi s = some v) :
    lo ≤ v ∧ v ≤ hi := by
  unfold parseInt at h
  split at h
  · rename_i w hw
    obtain rfl := Option.some.inj h
    simp only [fromChars, Option.ite_none_left_eq_some, not_or, not_lt] at hw
    obtain ⟨⟨-, hlo, hhi⟩, he⟩ := hw
    obtain ⟨rfl, -⟩ := Prod.mk.inj (Option.some.inj he)
    exact ⟨hlo, hhi⟩
  · cases h

namespace Dbl

/-! ## Digits -/

theorem ch_digitChar {n : Nat} (h : n < 10) : ch n.digitChar = UInt8.ofNat (48 + n) := by
  interval_cases n <;> rfl

theorem digits_eq_if (n : Nat) :
    digits n = if n < 10 then [UInt8.ofNat (48 + n)]
      else digits (n / 10) ++ [UInt8.ofNat (48 + n % 10)] := by
  unfold digits
  rw [Nat.toDigits_eq_if (by decide)]
  split
  · rename_i h
    simp [ch_digitChar h]
  · simp [ch_digitChar (Nat.mod_lt n (by decide : 0 < 10))]

theorem isDigit_ofNat {n : Nat} (h : n < 10) :
    isDigit (UInt8.ofNat (48 + n)) = true ∧ (UInt8.ofNat (48 + n)).toNat - 48 = n := by
  interval_cases n <;> decide

theorem digits_ne_nil (n : Nat) : digits n ≠ [] := by
  rw [digits_eq_if]
  split <;> simp

theorem isDigit_digits (n : Nat) : ∀ c ∈ digits n, isDigit c = true := by
  induction n using Nat.strong_induction_on with
  | h n ih =>
    intro c hc
    rw [digits_eq_if] at hc
    split at hc
    · rename_i h
      rw [List.mem_singleton.1 hc]
      exact (isDigit_ofNat h).1
    · rcases List.mem_append.1 hc with hc | hc
      · exact ih (n / 10) (by omega) c hc
      · rw [List.mem_singleton.1 hc]
        exact (isDigit_ofNat (Nat.mod_lt n (by decide))).1

theorem digitsVal_concat (ds : Bytes) (c : UInt8) :
    digitsVal (ds ++ [c]) = digitsVal ds * 10 + (c.toNat - 48) := by
  simp [digitsVal]

theorem digitsVal_digits (n : Nat) : digitsVal (digits n) = n := by
  induction n using Nat.strong_induction_on with
  | h n ih =>
    rw [digits_eq_if]
    split
    · rename_i h
      simpa [digitsVal] using (isDigit_ofNat h).2
    · rw [digitsVal_concat, ih (n / 10) (by omega), (isDigit_ofNat (Nat.mod_lt n (by decide))).2]
      omega

theorem length_digits_le {n k : Nat} (hk : 0 < k) (h : n < 10 ^ k) : (digits n).length ≤ k := by
  rw [digits, List.length_map]
  exact (Nat.length_toDigits_le_iff (by decide) hk).2 h

theorem digitsVal_lt {ds : Bytes} (h : ∀ c ∈ ds, isDigit c = true) :
    digitsVal ds < 10 ^ ds.length := by
  induction ds using List.reverseRecOn with
  | nil => simp [digitsVal]
  | append_singleton ds c ih =>
    have hc : c.toNat - 48 < 10 := by
      refine byte_forall (p := fun c => isDigit c = true → c.toNat - 48 < 10) ?_ c
        (h c (by simp))
      decide +kernel
    have := ih fun d hd => h d (by simp [hd])
    rw [digitsVal_concat, List.length_append, List.length_singleton, Nat.pow_succ]
    omega

/-- A byte after which digits have ended. -/
theorem takeWhile_digits {ds r : Bytes} (h : ∀ c ∈ ds, isDigit c = true)
    (hr : ∀ c, r.head? = some c → isDigit c = false) :
    (ds ++ r).takeWhile isDigit = ds ∧ (ds ++ r).dropWhile isDigit = r := by
  rw [List.takeWhile_append_of_pos h, List.dropWhile_append_of_pos h]
  cases r with
  | nil => simp
  | cons c r => simp [hr c rfl]

theorem head_digit_ne {ds : Bytes} (h : ∀ c ∈ ds, isDigit c = true) (r : Bytes) (hne : ds ≠ []) :
    (ds ++ r).head? ≠ some (ch '-') := by
  cases ds with
  | nil => exact absurd rfl hne
  | cons c ds =>
    intro e
    have hc := h c (List.mem_cons_self ..)
    obtain rfl : c = ch '-' := by simpa using e
    exact absurd hc (by decide)

/-- An integer in range is read back exactly. -/
theorem fromChars_intText {lo hi v : Int} (hlo : lo ≤ v) (hhi : v ≤ hi) :
    fromChars lo hi (intText v) = some (v, []) := by
  obtain ⟨n, hn⟩ : ∃ n, v.natAbs = n := ⟨_, rfl⟩
  obtain ⟨htake, hdrop⟩ := takeWhile_digits (isDigit_digits n) (r := []) (by simp)
  rw [List.append_nil] at htake hdrop
  have hne := digits_ne_nil n
  unfold intText
  rw [hn]
  split
  · rename_i hv
    obtain rfl : v = -(n : Int) := by omega
    have hlo' : lo < 0 := by omega
    simp [fromChars, hlo', htake, hdrop, digitsVal_digits, hne, hlo, hhi]
  · rename_i hv
    obtain rfl : v = (n : Int) := by omega
    have hhead : (digits n).head? ≠ some 45 := by
      simpa using head_digit_ne (isDigit_digits n) [] hne
    have hneg : (decide (lo < 0) && (digits n).head? == some (ch '-')) = false := by
      simp [hhead]
    simp only [fromChars, hneg]
    simp [htake, hdrop, digitsVal_digits, hne, hlo, hhi]

theorem isSpace_of_isDigit {c : UInt8} (h : isDigit c = true) : isSpace c = false := by
  refine byte_forall (p := fun c => isDigit c = true → isSpace c = false) ?_ c h
  decide +kernel

theorem trim_digits {ds : Bytes} (h : ∀ c ∈ ds, isDigit c = true) : trim ds = ds :=
  trim_eq_self (fun c hc => isSpace_of_isDigit (h c (List.mem_of_head? hc)))
    fun c hc => isSpace_of_isDigit (h c (List.mem_of_getLast? hc))

/-- Digits, with or without zeros before them, are read as their value. -/
theorem parseInt_digits {lo hi : Int} {ds : Bytes} (h : ∀ c ∈ ds, isDigit c = true) (hne : ds ≠ [])
    (hlo : lo ≤ digitsVal ds) (hhi : (digitsVal ds : Int) ≤ hi) : parseInt lo hi ds = some (digitsVal ds) := by
  obtain ⟨htake, hdrop⟩ := takeWhile_digits h (r := []) (by simp)
  rw [List.append_nil] at htake hdrop
  have hhead : ds.head? ≠ some (ch '-') := by
    simpa using head_digit_ne h [] hne
  have hneg : (decide (lo < 0) && ds.head? == some (ch '-')) = false := by
    rw [beq_false_of_ne hhead, Bool.and_false]
  have hbad : ¬ (ds.isEmpty ∨ (digitsVal ds : Int) < lo ∨ hi < (digitsVal ds : Int)) := by
    rw [List.isEmpty_iff]
    rintro (h | h | h)
    exacts [hne h, by omega, by omega]
  have hread : fromChars lo hi ds = some ((digitsVal ds : Int), []) := by
    simp only [fromChars, hneg, Bool.false_eq_true, if_false, htake, hdrop, if_neg hbad]
  rw [parseInt, trim_digits h, hread]
  rfl

theorem digitsVal_zeros (k : Nat) (ds : Bytes) : digitsVal (List.replicate k (ch '0') ++ ds) = digitsVal ds := by
  induction k with
  | zero => rfl
  | succ k ih => exact ih

/-- A number that fits in the width is written with exactly that many digits. -/
theorem padded_spec {w n : Nat} (hw : 0 < w) (h : n < 10 ^ w) :
    (padded w n).length = w ∧ (∀ c ∈ padded w n, isDigit c = true) ∧ digitsVal (padded w n) = n := by
  have hlen := length_digits_le hw h
  refine ⟨?_, fun c hc => ?_, ?_⟩
  · rw [padded, List.length_append, List.length_replicate]
    omega
  · rcases List.mem_append.mp hc with hc | hc
    · rw [List.eq_of_mem_replicate hc]
      decide
    · exact isDigit_digits n c hc
  · rw [padded, digitsVal_zeros, digitsVal_digits]

/-! ## Decimals -/

/-- A sign, digits, and a point with digits, in at most 47 bytes. -/
structure DecText (t : Bytes) : Prop where
  form : ∃ sign whole frac : Bytes,
    t = sign ++ (whole ++ if frac = [] then [] else ch '.' :: frac) ∧
    (sign = [] ∨ sign = [ch '-']) ∧ whole ≠ [] ∧ (∀ c ∈ whole, isDigit c = true) ∧
    ∀ c ∈ frac, isDigit c = true
  short : t.length ≤ 47

/-- Bounds on decimals of at most 47 digits, by powers of two from `2 ^ 160` on. -/
theorem dec_bounds {n k a b c : Nat} (hn : n < 10 ^ 47) (hk : k ≤ 47) (ha : 160 ≤ a)
    (hab : a + 1 ≤ b) (hc : 160 ≤ c) :
    (n : ℚ) / 10 ^ k < 2 ^ b - 2 ^ a ∧ (0 < (n : ℚ) / 10 ^ k → 1 < (n : ℚ) / 10 ^ k * 2 ^ c) := by
  have hk1 : (1 : ℚ) ≤ 10 ^ k := one_le_pow₀ (by norm_num)
  have hk47 : (10 : ℚ) ^ k ≤ 10 ^ 47 := pow_le_pow_right₀ (by norm_num) hk
  have hn' : (n : ℚ) < 10 ^ 47 := by exact_mod_cast hn
  have h160 : (10 : ℚ) ^ 47 < 2 ^ 160 := by norm_num
  have hpow : ∀ {x y : Nat}, x ≤ y → (2 : ℚ) ^ x ≤ 2 ^ y :=
    fun h => pow_le_pow_right₀ (by norm_num) h
  constructor
  · have h1 := hpow ha
    have h2 := hpow hab
    rw [pow_succ] at h2
    calc (n : ℚ) / 10 ^ k ≤ n := div_le_self (Nat.cast_nonneg n) hk1
      _ < 10 ^ 47 := hn'
      _ < 2 ^ b - 2 ^ a := by linarith
  · intro hpos
    have hn1 : (1 : ℚ) ≤ n := by
      rcases Nat.eq_zero_or_pos n with rfl | h
      · simp at hpos
      · exact_mod_cast h
    have hdiv : (1 : ℚ) / 10 ^ 47 ≤ n / 10 ^ k := by gcongr
    have h1 : (1 : ℚ) < 1 / 10 ^ 47 * 2 ^ 160 := by norm_num
    calc (1 : ℚ) < 1 / 10 ^ 47 * 2 ^ 160 := h1
      _ ≤ n / 10 ^ k * 2 ^ c := mul_le_mul hdiv (hpow hc) (by positivity) (by positivity)

theorem outOfRange_dec {n k : Nat} (hn : n < 10 ^ 47) (hk : k ≤ 47) :
    outOfRange ((n : ℚ) * (10 : ℚ) ^ (0 - (k : Int))) = false := by
  have hpow : (10 : ℚ) ^ (0 - (k : Int)) = 1 / 10 ^ k := by
    rw [zero_sub, zpow_neg, zpow_natCast, one_div]
  obtain ⟨h1, h2⟩ := dec_bounds hn hk (a := 970) (b := 1024) (c := 1075) (by decide) (by decide)
    (by decide)
  rw [hpow, mul_one_div, outOfRange, decide_eq_false_iff_not, not_or, not_and, not_le, not_le]
  exact ⟨h1, h2⟩

/-- The text of a decimal: digits, and a point with digits where there are any. -/
def decimal (whole frac : Bytes) : Bytes := whole ++ if frac = [] then [] else ch '.' :: frac

theorem decimal_length (whole frac : Bytes) : whole.length + frac.length ≤ (decimal whole frac).length := by
  rw [decimal, List.length_append]
  split
  · rename_i hf
    rw [hf]
  · rw [List.length_cons]
    omega

/-- The text after the digits of a decimal. -/
def point (frac : Bytes) : Bytes := if frac = [] then [] else ch '.' :: frac

section

variable {sign whole frac : Bytes} (hsign : sign = [] ∨ sign = [ch '-']) (hne : whole ≠ [])
  (hwhole : ∀ c ∈ whole, isDigit c = true) (hfrac : ∀ c ∈ frac, isDigit c = true)

include hwhole in
theorem decimal_parts : (decimal whole frac).takeWhile isDigit = whole ∧
    (decimal whole frac).dropWhile isDigit = point frac := by
  refine takeWhile_digits hwhole fun c hc => ?_
  split at hc
  · cases hc
  · rw [← Option.some.inj hc]
    decide

include hfrac in
theorem point_parts :
    (if (point frac).head? = some (ch '.') then (point frac).tail.takeWhile isDigit else []) = frac ∧
      (if (point frac).head? = some (ch '.') then (point frac).tail.dropWhile isDigit else point frac) = [] := by
  obtain ⟨htake, hdrop⟩ := takeWhile_digits hfrac (r := []) (by simp)
  rw [List.append_nil] at htake hdrop
  rcases eq_or_ne frac [] with rfl | hf
  · exact ⟨rfl, rfl⟩
  · simp [point, hf, htake, hdrop]

include hsign hne hwhole in
theorem head_decimal : (sign ++ decimal whole frac).head? = some (ch '-') ↔ ¬ sign = [] := by
  rcases hsign with rfl | rfl
  · exact iff_of_false (head_digit_ne hwhole _ hne) (not_not.2 rfl)
  · exact iff_of_true rfl (List.cons_ne_nil _ _)

include hsign hne hwhole in
theorem unsigned_decimal : (if (sign ++ decimal whole frac).head? = some (ch '-')
    then (sign ++ decimal whole frac).tail else sign ++ decimal whole frac) = decimal whole frac := by
  simp only [head_decimal hsign hne hwhole, ite_not]
  rcases hsign with rfl | rfl <;> rfl

include hsign hne hwhole hfrac

/-- A decimal of at most 47 digits is read as the number that it writes. -/
theorem fromCharsDbl_decimal {F : Type} [Dbl F] (hshort : whole.length + frac.length ≤ 47) :
    fromCharsDbl (F := F) (sign ++ decimal whole frac) =
      let q : ℚ := digitsVal (whole ++ frac) * (10 : ℚ) ^ (0 - (frac.length : Int))
      some (if sign = [] then ofRat q else -ofRat q) := by
  have hall : ∀ c ∈ whole ++ frac, isDigit c = true := by
    intro c hc
    rcases List.mem_append.1 hc with hc | hc
    · exact hwhole c hc
    · exact hfrac c hc
  have hrange := outOfRange_dec (n := digitsVal (whole ++ frac)) (k := frac.length)
    ((digitsVal_lt hall).trans_le (Nat.pow_le_pow_right (by decide) (by simpa using hshort)))
    (by omega)
  obtain ⟨htake, hdrop⟩ := @decimal_parts whole frac hwhole
  obtain ⟨hf, hr⟩ := point_parts hfrac
  unfold fromCharsDbl
  simp only [unsigned_decimal hsign hne hwhole, htake, hdrop, hf, hr, exponent, hrange]
  rw [if_neg (by simp [hne])]
  simp only [Bool.false_eq_true, if_false, head_decimal hsign hne hwhole, ite_not]

theorem afterNumber_decimal : afterNumber (sign ++ decimal whole frac) = [] := by
  unfold afterNumber
  simp only [unsigned_decimal hsign hne hwhole, (@decimal_parts whole frac hwhole).2, (point_parts hfrac).2]
  rfl

end

theorem fromCharsDbl_isSome {F : Type} [Dbl F] {t : Bytes} (h : DecText t) :
    ∃ v : F, fromCharsDbl t = some v := by
  obtain ⟨⟨sign, whole, frac, rfl, hsign, hne, hwhole, hfrac⟩, hlen⟩ := h
  have hshort := decimal_length whole frac
  rw [List.length_append] at hlen
  exact ⟨_, fromCharsDbl_decimal hsign hne hwhole hfrac (hshort.trans ((Nat.le_add_left _ _).trans hlen))⟩

/-! ## Reading a whole text -/

/-- What begins with a digit is the text of no infinity. -/
theorem special_eq_none {F : Type} [Dbl F] {sign : Bytes} (hsign : sign = [] ∨ sign = [ch '-']) {c : UInt8}
    (hc : isDigit c = true) (t : Bytes) : special (F := F) (sign ++ c :: t) = none := by
  have hlow : toLower c = c := by
    refine byte_forall (p := fun c => isDigit c = true → toLower c = c) ?_ c hc
    decide +kernel
  have hneg : (if (sign ++ c :: t).head? = some (ch '-') then (sign ++ c :: t).tail else sign ++ c :: t) =
      c :: t := by
    rcases hsign with rfl | rfl
    · have hne : c ≠ ch '-' := by
        rintro rfl
        exact absurd hc (by decide)
      rw [List.nil_append, List.head?_cons, if_neg fun h => hne (Option.some.inj h)]
    · rfl
  have hfirst : ∀ {d : UInt8} {s : Bytes}, isDigit d = false → toLowerCopy (c :: t) ≠ d :: s := by
    intro d s hd h
    have hcd : toLower c = d := (List.cons.inj h).1
    rw [← hcd, hlow, hc] at hd
    exact Bool.true_eq_false_eq_False hd
  have hinf : ¬ (toLowerCopy (c :: t) = lit "inf" ∨ toLowerCopy (c :: t) = lit "infinity") :=
    not_or.2 ⟨hfirst (by decide), hfirst (by decide)⟩
  have htake : (toLowerCopy (c :: t)).take 4 ≠ lit "nan(" := by
    intro h
    have hcd : toLower c = ch 'n' := (List.cons.inj h).1
    rw [hlow] at hcd
    rw [hcd] at hc
    exact absurd hc (by decide)
  have hnan : toLowerCopy (c :: t) ≠ lit "nan" := hfirst (by decide)
  unfold special
  simp only [hneg]
  rw [if_neg hinf, if_neg (not_or.2 ⟨hnan, fun h => htake h.1⟩)]

theorem parseDouble_decimal {F : Type} [Dbl F] {sign whole frac : Bytes} (hsign : sign = [] ∨ sign = [ch '-'])
    (hne : whole ≠ []) (hwhole : ∀ c ∈ whole, isDigit c = true) (hfrac : ∀ c ∈ frac, isDigit c = true)
    (hshort : whole.length + frac.length ≤ 47) :
    parseDouble (F := F) (sign ++ decimal whole frac) =
      let q : ℚ := digitsVal (whole ++ frac) * (10 : ℚ) ^ (0 - (frac.length : Int))
      some (if sign = [] then ofRat q else -ofRat q) := by
  obtain ⟨c, w, rfl⟩ := List.exists_cons_of_ne_nil hne
  have hc : isDigit c = true := hwhole c List.mem_cons_self
  have htext : ∀ x ∈ sign ++ decimal (c :: w) frac, isSpace x = false := by
    intro x hx
    rcases List.mem_append.1 hx with hx | hx
    · rcases hsign with rfl | rfl
      · exact absurd hx List.not_mem_nil
      · rw [List.mem_singleton.1 hx]
        decide
    · rcases List.mem_append.1 hx with hx | hx
      · exact isSpace_of_isDigit (hwhole x hx)
      · split at hx
        · exact absurd hx List.not_mem_nil
        · rcases List.mem_cons.1 hx with rfl | hx
          · decide
          · exact isSpace_of_isDigit (hfrac x hx)
  have htrim : trim (sign ++ decimal (c :: w) frac) = sign ++ decimal (c :: w) frac :=
    trim_eq_self (fun x hx => htext x (List.mem_of_head? hx)) fun x hx => htext x (List.mem_of_getLast? hx)
  have hplus : (sign ++ decimal (c :: w) frac).head? ≠ some (ch '+') := by
    intro h
    rcases hsign with rfl | rfl
    · obtain rfl : c = ch '+' := Option.some.inj h
      exact absurd hc (by decide)
    · exact absurd (Option.some.inj h) (by decide)
  have hafter : (afterNumber (sign ++ decimal (c :: w) frac)).isEmpty = true := by
    rw [afterNumber_decimal hsign hne hwhole hfrac]
    rfl
  have hspecial : special (F := F) (sign ++ decimal (c :: w) frac) = none := special_eq_none hsign hc _
  unfold parseDouble
  simp only [htrim, hplus, if_false, hspecial, hafter, if_true]
  exact fromCharsDbl_decimal hsign hne hwhole hfrac hshort

end Dbl

end Stok
