import Stok.Core.Text
import Stok.Market.Itch
import Stok.Ref.Master

/-!
# The ITCH encoders (`itch::enc` of `market/itch.hpp`)

An encoder writes fields into a buffer that `header` has cleared. A write changes nothing outside of
itself (`At.poke`), so a field that is written once stands where the decoder reads it, and
`decode_enc` follows for each message. `decodeMem` is the decoder on a memory that faults outside of the
message: it never does (`decodeMem_eq`).
-/

namespace Stok.Itch

/-! ## Writes -/

/-- `bs` copied to offset `off`. -/
def poke (p : Bytes) (off : Nat) (bs : Bytes) : Bytes := p.take off ++ bs ++ p.drop (off + bs.length)

/-- The low `n` bytes of a number, most significant first. -/
def beBytes : Nat → Nat → Bytes
  | 0, _ => []
  | n + 1, v => beBytes n (v / 256) ++ [UInt8.ofNat (v % 256)]

namespace Enc

def put16 (p : Bytes) (off : Nat) (v : UInt16) : Bytes := poke p off (beBytes 2 v.toNat)

def put32 (p : Bytes) (off : Nat) (v : UInt32) : Bytes := poke p off (beBytes 4 v.toNat)

def put64 (p : Bytes) (off : Nat) (v : UInt64) : Bytes := poke p off (beBytes 8 v.toNat)

def put48 (p : Bytes) (off : Nat) (v : UInt64) : Bytes :=
  put32 (put16 p off (v >>> 32).toUInt16) (off + 2) v.toUInt32

/-- The first `n` bytes of a C string over `n` spaces. -/
def putPadded (n : Nat) (p : Bytes) (off : Nat) (s : Bytes) : Bytes :=
  poke (poke p off (List.replicate n 32)) off ((cstr s).take n)

def putStock (p : Bytes) (off : Nat) (sym : Bytes) : Bytes := putPadded 8 p off sym

def header (type : UInt8) (locate : UInt16) (ts : UInt64) : Bytes :=
  let p := List.replicate (messageLength type) 0
  let p := poke p 0 [type]
  let p := put16 p 1 locate
  let p := put16 p 3 0
  put48 p 5 ts

def systemEvent (ts : UInt64) (code : UInt8) : Bytes :=
  let p := header (ch 'S') 0 ts
  poke p 11 [code]

def stockDirectory (locate : UInt16) (ts : UInt64) (sym : Bytes) (cat : UInt8) : Bytes :=
  let p := header (ch 'R') locate ts
  let p := putStock p 11 sym
  let p := poke p 19 [cat]
  let p := poke p 20 [ch 'N']
  put32 p 21 100

def tradingAction (locate : UInt16) (ts : UInt64) (sym : Bytes) (state : UInt8) (reason : Bytes) : Bytes :=
  let p := header (ch 'H') locate ts
  let p := putStock p 11 sym
  let p := poke p 19 [state]
  putPadded 4 p 21 reason

def add (locate : UInt16) (ts ref : UInt64) (side : UInt8) (shares : UInt32) (sym : Bytes) (price : UInt32) : Bytes :=
  let p := header (ch 'A') locate ts
  let p := put64 p 11 ref
  let p := poke p 19 [side]
  let p := put32 p 20 shares
  let p := putStock p 24 sym
  put32 p 32 price

def executed (locate : UInt16) (ts ref : UInt64) (shares : UInt32) (matchNo : UInt64) : Bytes :=
  let p := header (ch 'E') locate ts
  let p := put64 p 11 ref
  let p := put32 p 19 shares
  put64 p 23 matchNo

def executedPrice (locate : UInt16) (ts ref : UInt64) (shares : UInt32) (printable : Bool) (price : UInt32) : Bytes :=
  let p := header (ch 'C') locate ts
  let p := put64 p 11 ref
  let p := put32 p 19 shares
  let p := put64 p 23 1
  let p := poke p 31 [if printable then ch 'Y' else ch 'N']
  put32 p 32 price

def cancel (locate : UInt16) (ts ref : UInt64) (shares : UInt32) : Bytes :=
  let p := header (ch 'X') locate ts
  let p := put64 p 11 ref
  put32 p 19 shares

def del (locate : UInt16) (ts ref : UInt64) : Bytes :=
  let p := header (ch 'D') locate ts
  put64 p 11 ref

def replace (locate : UInt16) (ts oldRef newRef : UInt64) (shares price : UInt32) : Bytes :=
  let p := header (ch 'U') locate ts
  let p := put64 p 11 oldRef
  let p := put64 p 19 newRef
  let p := put32 p 27 shares
  put32 p 31 price

def trade (locate : UInt16) (ts : UInt64) (side : UInt8) (shares : UInt32) (sym : Bytes) (price : UInt32) : Bytes :=
  let p := header (ch 'P') locate ts
  let p := put64 p 11 0
  let p := poke p 19 [side]
  let p := put32 p 20 shares
  let p := putStock p 24 sym
  let p := put32 p 32 price
  put64 p 36 1

def cross (locate : UInt16) (ts shares : UInt64) (sym : Bytes) (price : UInt32) (type : UInt8) : Bytes :=
  let p := header (ch 'Q') locate ts
  let p := put64 p 11 shares
  let p := putStock p 19 sym
  let p := put32 p 27 price
  let p := put64 p 31 1
  poke p 39 [type]

end Enc

section Writes

variable {p bs cs : Bytes} {off i k n : Nat}

@[simp] theorem length_beBytes (n v : Nat) : (beBytes n v).length = n := by
  induction n generalizing v with
  | zero => rfl
  | succ n ih => rw [beBytes, List.length_append, ih, List.length_singleton]

theorem length_poke (h : off + bs.length ≤ p.length) : (poke p off bs).length = p.length := by
  simp only [poke, List.length_append, List.length_take, List.length_drop]
  omega

theorem byteAt_poke (h : off + bs.length ≤ p.length) (i : Nat) :
    byteAt (poke p off bs) i = if off ≤ i ∧ i < off + bs.length then byteAt bs (i - off) else byteAt p i := by
  have hlen : (p.take off).length = off := by
    rw [List.length_take]
    omega
  simp only [byteAt, poke, List.getD_eq_getElem?_getD, List.append_assoc]
  rcases Nat.lt_or_ge i off with hlt | hge
  · rw [List.getElem?_append_left (by omega), List.getElem?_take_of_lt hlt, if_neg (by omega)]
  · rw [List.getElem?_append_right (by omega), hlen]
    rcases Nat.lt_or_ge i (off + bs.length) with hin | hout
    · rw [List.getElem?_append_left (by omega), if_pos ⟨hge, hin⟩]
    · rw [List.getElem?_append_right (by omega), List.getElem?_drop, if_neg (by omega)]
      congr 2
      omega

/-- The bytes `bs` stand at offset `i`. -/
def At (p : Bytes) (i : Nat) (bs : Bytes) : Prop := ∀ k < bs.length, byteAt p (i + k) = byteAt bs k

theorem at_poke (h : off + bs.length ≤ p.length) : At (poke p off bs) off bs := by
  intro k hk
  rw [byteAt_poke h, if_pos (by omega), Nat.add_sub_cancel_left]

/-- Bytes that a write does not touch. -/
theorem At.poke (ha : At p i bs) (h : off + cs.length ≤ p.length)
    (hdisj : i + bs.length ≤ off ∨ off + cs.length ≤ i) : At (poke p off cs) i bs := by
  intro k hk
  rw [byteAt_poke h, if_neg (by omega)]
  exact ha k hk

theorem At.append (ha : At p i bs) (hle : i + bs.length ≤ p.length) (extra : Bytes) : At (p ++ extra) i bs := by
  intro k hk
  rw [byteAt, List.getD_append _ _ _ _ (by omega)]
  exact ha k hk

theorem beNat_eq {m : Nat} (h : ∀ k < m, byteAt p (i + k) = byteAt bs k) : beNat p i m = beNat bs 0 m := by
  induction m with
  | zero => rfl
  | succ m ih => rw [beNat, beNat, ih fun k hk => h k (Nat.lt_succ_of_lt hk), h m (Nat.lt_succ_self m), Nat.zero_add]

theorem leNat_eq {m j : Nat} (h : ∀ k < m, byteAt p (i + k) = byteAt bs (j + k)) : leNat p i m = leNat bs j m := by
  induction m generalizing i j with
  | zero => rfl
  | succ m ih =>
    have h0 := h 0 (Nat.succ_pos m)
    have hrest := ih (i := i + 1) (j := j + 1) fun k hk => by
      rw [Nat.add_right_comm, Nat.add_right_comm j]
      exact h (k + 1) (Nat.succ_lt_succ hk)
    rw [leNat, leNat, hrest]
    exact congrArg (fun c : UInt8 => c.toNat + _) h0

theorem beNat_beBytes (n v : Nat) : beNat (beBytes n v) 0 n = v % 256 ^ n := by
  induction n generalizing v with
  | zero => rw [pow_zero, Nat.mod_one]; rfl
  | succ n ih =>
    have hpre : beNat (beBytes (n + 1) v) 0 n = beNat (beBytes n (v / 256)) 0 n := by
      refine beNat_eq fun k hk => ?_
      rw [Nat.zero_add, beBytes, byteAt, List.getD_append _ _ _ _ (by rwa [length_beBytes])]
      rfl
    have hlast : byteAt (beBytes (n + 1) v) (0 + n) = UInt8.ofNat (v % 256) := by
      rw [beBytes, byteAt, Nat.zero_add, List.getD_append_right _ _ _ _ (by rw [length_beBytes]), length_beBytes,
        Nat.sub_self]
      rfl
    rw [beNat, hpre, ih, hlast, UInt8.toNat_ofNat', pow_succ' 256 n, Nat.mod_mul]
    omega

theorem At.beNat {v : Nat} (ha : At p i (beBytes n v)) (hv : v < 256 ^ n) : beNat p i n = v := by
  rw [beNat_eq fun k hk => ha k (by rwa [length_beBytes]), beNat_beBytes, Nat.mod_eq_of_lt hv]

theorem At.be16 {v : UInt16} (ha : At p i (beBytes 2 v.toNat)) : be16 p i = v := by
  rw [Itch.be16, ha.beNat v.toNat_lt, UInt16.ofNat_toNat]

theorem At.be32 {v : UInt32} (ha : At p i (beBytes 4 v.toNat)) : be32 p i = v := by
  rw [Itch.be32, ha.beNat v.toNat_lt, UInt32.ofNat_toNat]

theorem At.be64 {v : UInt64} (ha : At p i (beBytes 8 v.toNat)) : be64 p i = v := by
  rw [Itch.be64, ha.beNat v.toNat_lt, UInt64.ofNat_toNat]

theorem At.byte {c : UInt8} (ha : At p i [c]) : byteAt p i = c := ha 0 Nat.one_pos

end Writes

/-! ## Messages -/

section Messages

variable {p bs : Bytes} {off len n : Nat} {fs : List (Nat × Bytes)} {t : UInt8} {locate : UInt16} {ts : UInt64}

/-- A buffer of `len` bytes with fields at their offsets. -/
structure Fields (len : Nat) (fs : List (Nat × Bytes)) (p : Bytes) : Prop where
  length : p.length = len
  field : ∀ f ∈ fs, f.1 + f.2.length ≤ len ∧ At p f.1 f.2

/-- A write adds a field to those that it does not touch. -/
theorem Fields.poke (h : Fields len fs p) (off : Nat) (bs : Bytes) (hlen : off + bs.length ≤ len)
    (hdisj : ∀ f ∈ fs, f.1 + f.2.length ≤ off ∨ off + bs.length ≤ f.1) :
    Fields len ((off, bs) :: fs) (poke p off bs) := by
  have hle : off + bs.length ≤ p.length := by rwa [h.length]
  refine ⟨(length_poke hle).trans h.length, fun f hf => ?_⟩
  rcases List.mem_cons.mp hf with rfl | hf
  · exact ⟨hlen, at_poke hle⟩
  · obtain ⟨hf', hat⟩ := h.field f hf
    exact ⟨hf', hat.poke hle (hdisj f hf)⟩

/-- More bytes after the message. -/
theorem Fields.append (h : Fields len fs p) (extra : Bytes) : ∀ f ∈ fs, At (p ++ extra) f.1 f.2 := by
  intro f hf
  obtain ⟨hle, hat⟩ := h.field f hf
  exact hat.append (by rwa [h.length]) extra

/-- A string in a field of `n` bytes, with spaces after it. -/
def padded (n : Nat) (s : Bytes) : Bytes := s.take n ++ List.replicate (n - s.length) 32

@[simp] theorem length_padded (n : Nat) (s : Bytes) : (padded n s).length = n := by
  simp only [padded, List.length_append, List.length_take, List.length_replicate]
  omega

theorem putPadded_eq (hle : off + n ≤ p.length) (s : Bytes) :
    Enc.putPadded n p off s = Itch.poke p off (padded n (cstr s)) := by
  have hlen : (p.take off).length = off := by
    rw [List.length_take]
    omega
  have hdrop : (Itch.poke p off (List.replicate n 32)).drop (off + ((cstr s).take n).length) =
      List.replicate (n - (cstr s).length) 32 ++ p.drop (off + n) := by
    rw [Itch.poke, List.append_assoc, ← List.drop_drop, List.drop_left' hlen, List.length_replicate,
      List.drop_append_of_le_length (by rw [List.length_take, List.length_replicate]; omega), List.drop_replicate,
      List.length_take]
    congr 2
    omega
  have htake : (Itch.poke p off (List.replicate n 32)).take off = p.take off := by
    rw [Itch.poke, List.append_assoc, List.take_left' hlen]
  rw [Enc.putPadded, Itch.poke, hdrop, htake, Itch.poke, length_padded, padded]
  simp only [List.append_assoc]

theorem Fields.putPadded (h : Fields len fs p) (off n : Nat) (hlen : off + n ≤ len) (s : Bytes)
    (hdisj : ∀ f ∈ fs, f.1 + f.2.length ≤ off ∨ off + n ≤ f.1) :
    Fields len ((off, padded n (cstr s)) :: fs) (Enc.putPadded n p off s) := by
  rw [putPadded_eq (by rwa [h.length])]
  exact h.poke _ _ (by rwa [length_padded]) (by rwa [length_padded])

/-- The fields of `header`. -/
def headerFields (t : UInt8) (locate : UInt16) (ts : UInt64) : List (Nat × Bytes) :=
  [(7, beBytes 4 ts.toUInt32.toNat), (5, beBytes 2 (ts >>> 32).toUInt16.toNat), (3, beBytes 2 0),
   (1, beBytes 2 locate.toNat), (0, [t])]

theorem header_fields (t : UInt8) (locate : UInt16) (ts : UInt64) (h : 11 ≤ messageLength t) :
    Fields (messageLength t) (headerFields t locate ts) (Enc.header t locate ts) := by
  have h0 : Fields (messageLength t) [] (List.replicate (messageLength t) 0) := ⟨List.length_replicate, nofun⟩
  have h1 := h0.poke 0 [t] (by simp; omega) (by simp)
  have h2 := h1.poke 1 (beBytes 2 locate.toNat) (by simp; omega) (by simp)
  have h3 := h2.poke 3 (beBytes 2 0) (by simp; omega) (by simp)
  have h4 := h3.poke 5 (beBytes 2 (ts >>> 32).toUInt16.toNat) (by simp; omega) (by simp)
  exact h4.poke 7 (beBytes 4 ts.toUInt32.toNat) (by simp; omega) (by simp)

/-- The call that `decode` makes for a known message. -/
def dispatch (t : UInt8) (locate : UInt16) (ts : UInt64) (p : Bytes) : Msg :=
  if t = ch 'A' ∨ t = ch 'F' then .add locate ts (be64 p 11) (byteAt p 19) (be32 p 20) (be32 p 32)
  else if t = ch 'E' then .executed locate ts (be64 p 11) (be32 p 19)
  else if t = ch 'C' then .executedPrice locate ts (be64 p 11) (be32 p 19) (byteAt p 31 == ch 'Y') (be32 p 32)
  else if t = ch 'X' then .cancel locate ts (be64 p 11) (be32 p 19)
  else if t = ch 'D' then .delete locate ts (be64 p 11)
  else if t = ch 'U' then .replace locate ts (be64 p 11) (be64 p 19) (be32 p 27) (be32 p 31)
  else if t = ch 'P' then .trade locate ts (byteAt p 19) (be32 p 20) (stockKey p 24) (be32 p 32)
  else if t = ch 'Q' then .cross locate ts (be64 p 11) (stockKey p 19) (be32 p 27) (byteAt p 39)
  else if t = ch 'S' then .systemEvent ts (byteAt p 11)
  else if t = ch 'R' then .stockDirectory locate ts (stockKey p 11) (byteAt p 19) (byteAt p 20) (be32 p 21)
  else if t = ch 'H' then .tradingAction locate ts (stockKey p 11) (byteAt p 19) ((p.drop 21).take 4)
  else if t = ch 'Y' then .regSho locate ts (byteAt p 19)
  else if t = ch 'B' then .broken locate ts (be64 p 11)
  else .unused

theorem decode_eq (p : Bytes) : decode p =
    if p.length < 11 ∨ messageLength (byteAt p 0) = 0 ∨ p.length < messageLength (byteAt p 0) then none
    else some (dispatch (byteAt p 0) (be16 p 1) (be48 p 5) p) := by
  unfold decode dispatch
  by_cases hshort : p.length < 11
  · rw [if_pos hshort, if_pos (.inl hshort)]
  · rw [if_neg hshort]
    dsimp only
    by_cases hneed : messageLength (byteAt p 0) = 0 ∨ p.length < messageLength (byteAt p 0)
    · rw [if_pos hneed, if_pos (.inr hneed)]
    · rw [if_neg hneed, if_neg (not_or.mpr ⟨hshort, hneed⟩)]
      simp only [apply_ite some]

theorem be48_eq {i : Nat} (hhigh : At p i (beBytes 2 (ts >>> 32).toUInt16.toNat))
    (hlow : At p (i + 2) (beBytes 4 ts.toUInt32.toNat)) (hts : ts.toNat < 2 ^ 48) : be48 p i = ts := by
  have hhi : (ts >>> 32).toUInt16.toNat = ts.toNat / 2 ^ 32 := by
    rw [UInt64.toNat_toUInt16, UInt64.toNat_shiftRight, Nat.shiftRight_eq_div_pow]
    exact Nat.mod_eq_of_lt (by change ts.toNat / 2 ^ 32 < 2 ^ 16; omega)
  have hlo : ts.toUInt32.toNat = ts.toNat % 2 ^ 32 := UInt64.toNat_toUInt32 ts
  rw [be48, hhigh.be16, hlow.be32]
  refine UInt64.toNat_inj.mp ?_
  rw [UInt64.toNat_or, UInt64.toNat_shiftLeft, UInt16.toNat_toUInt64, UInt32.toNat_toUInt64, hhi, hlo,
    show (32 : UInt64).toNat % 64 = 32 from rfl, Nat.mod_eq_of_lt, ← Nat.shiftLeft_add_eq_or_of_lt (Nat.mod_lt _ (by decide)),
    Nat.shiftLeft_eq]
  · omega
  · rw [Nat.shiftLeft_eq]
    omega

theorem Fields.decode (h : Fields (messageLength t) (fs ++ headerFields t locate ts) p) (hknown : 11 ≤ messageLength t)
    (hts : ts.toNat < 2 ^ 48) (extra : Bytes) : decode (p ++ extra) = some (dispatch t locate ts (p ++ extra)) := by
  have hat : ∀ f ∈ headerFields t locate ts, At (p ++ extra) f.1 f.2 := fun f hf =>
    h.append extra f (List.mem_append_right _ hf)
  simp only [headerFields, List.forall_mem_cons] at hat
  obtain ⟨hlow, hhigh, -, hlocate, htype, -⟩ := hat
  have hlen : messageLength t ≤ (p ++ extra).length := by
    rw [List.length_append, h.length]
    omega
  rw [decode_eq, htype.byte, hlocate.be16, be48_eq hhigh hlow hts, if_neg]
  omega

/-! ## Each message -/

/-- The key of a symbol: its bytes over eight spaces as a word. -/
def symbolKey (sym : Bytes) : UInt64 := loadLe (padded 8 sym)

theorem loadLe_eq {l : Bytes} (h : l.length = 8) : loadLe l = .ofNat (leNat l 0 8) := by
  have hfold : ∀ l : Bytes, l.foldr (fun c v => v * 256 + UInt64.ofNat c.toNat) 0 = UInt64.ofNat (leNat l 0 l.length) := by
    intro l
    induction l with
    | nil => rfl
    | cons c l ih =>
      have htail : leNat (c :: l) 1 l.length = leNat l 0 l.length := leNat_eq fun k _ => by
        rw [Nat.add_comm, Nat.zero_add]
        rfl
      rw [List.foldr_cons, ih, List.length_cons, leNat, htail, UInt64.ofNat_add, UInt64.ofNat_mul, UInt64.add_comm,
        UInt64.mul_comm]
      rfl
  rw [loadLe, List.take_of_length_le h.le, hfold, h]

theorem At.stockKey {i : Nat} (ha : At p i (padded 8 bs)) : stockKey p i = symbolKey bs := by
  rw [Itch.stockKey, symbolKey, loadLe_eq (length_padded 8 bs)]
  refine congrArg UInt64.ofNat (leNat_eq fun k hk => ?_)
  rw [Nat.zero_add]
  exact ha k (by rwa [length_padded])

theorem symbolKey_makeKey (h : bs.map toUpper = bs) : symbolKey bs = Master.makeKey bs := by
  rw [symbolKey, padded, Master.makeKey, List.map_take, h]

theorem At.slice {i : Nat} (ha : At p i bs) (hle : i + bs.length ≤ p.length) : (p.drop i).take bs.length = bs := by
  refine List.ext_getElem (by simp only [List.length_take, List.length_drop]; omega) fun k hk hk' => ?_
  have hbyte := ha k hk'
  simp only [byteAt, List.getD_eq_getElem?_getD] at hbyte
  rw [List.getElem?_eq_getElem (by omega), List.getElem?_eq_getElem hk', Option.getD_some, Option.getD_some] at hbyte
  rw [List.getElem_take, List.getElem_drop]
  exact hbyte

variable {sym reason : Bytes} (hts : ts.toNat < 2 ^ 48)

include hts

theorem decode_systemEvent (code : UInt8) (extra : Bytes) :
    decode (Enc.systemEvent ts code ++ extra) = some (.systemEvent ts code) := by
  have h : Fields (messageLength (ch 'S')) ([(11, [code])] ++ headerFields (ch 'S') 0 ts) (Enc.systemEvent ts code) :=
    (header_fields _ _ _ (by decide)).poke _ _ (by simp [messageLength]) (by simp [headerFields])
  have hat := h.append extra
  simp only [List.forall_mem_append, List.forall_mem_cons] at hat
  obtain ⟨⟨hcode, -⟩, -⟩ := hat
  rw [h.decode (by decide) hts]
  show some (Msg.systemEvent ts (byteAt _ 11)) = _
  rw [hcode.byte]

theorem decode_stockDirectory (hsym : 0 ∉ sym) (cat : UInt8) (extra : Bytes) :
    decode (Enc.stockDirectory locate ts sym cat ++ extra) =
      some (.stockDirectory locate ts (symbolKey sym) cat (ch 'N') 100) := by
  have h : Fields (messageLength (ch 'R')) ([(21, beBytes 4 (100 : UInt32).toNat), (20, [ch 'N']), (19, [cat]),
      (11, padded 8 (cstr sym))] ++ headerFields (ch 'R') locate ts) (Enc.stockDirectory locate ts sym cat) := by
    have h0 := header_fields (ch 'R') locate ts (by decide)
    have h1 := h0.putPadded 11 8 (by simp [messageLength]) sym (by simp [headerFields])
    have h2 := h1.poke 19 [cat] (by simp [messageLength]) (by simp [headerFields])
    have h3 := h2.poke 20 [ch 'N'] (by simp [messageLength]) (by simp [headerFields])
    exact h3.poke _ _ (by simp [messageLength]) (by simp [headerFields])
  have hat := h.append extra
  simp only [List.forall_mem_append, List.forall_mem_cons] at hat
  obtain ⟨⟨hlot, hn, hcat, hkey, -⟩, -⟩ := hat
  rw [h.decode (by decide) hts]
  show some (Msg.stockDirectory locate ts (stockKey _ 11) (byteAt _ 19) (byteAt _ 20) (be32 _ 21)) = _
  rw [hkey.stockKey, hcat.byte, hn.byte, hlot.be32, cstr_eq_self hsym]

theorem decode_tradingAction (hsym : 0 ∉ sym) (hreason : 0 ∉ reason) (state : UInt8) (extra : Bytes) :
    decode (Enc.tradingAction locate ts sym state reason ++ extra) =
      some (.tradingAction locate ts (symbolKey sym) state (padded 4 reason)) := by
  have h : Fields (messageLength (ch 'H')) ([(21, padded 4 (cstr reason)), (19, [state]), (11, padded 8 (cstr sym))] ++
      headerFields (ch 'H') locate ts) (Enc.tradingAction locate ts sym state reason) := by
    have h0 := header_fields (ch 'H') locate ts (by decide)
    have h1 := h0.putPadded 11 8 (by simp [messageLength]) sym (by simp [headerFields])
    have h2 := h1.poke 19 [state] (by simp [messageLength]) (by simp [headerFields])
    exact h2.putPadded _ _ (by simp [messageLength]) reason (by simp [headerFields])
  have hat := h.append extra
  simp only [List.forall_mem_append, List.forall_mem_cons] at hat
  obtain ⟨⟨hre, hstate, hkey, -⟩, -⟩ := hat
  rw [cstr_eq_self hreason] at hre
  have hslice := hre.slice (by rw [List.length_append, h.length, length_padded]; simp [messageLength])
  rw [length_padded] at hslice
  rw [h.decode (by decide) hts]
  show some (Msg.tradingAction locate ts (stockKey _ 11) (byteAt _ 19) ((List.drop 21 _).take 4)) = _
  rw [hkey.stockKey, hstate.byte, hslice, cstr_eq_self hsym]

theorem decode_add (ref : UInt64) (side : UInt8) (shares : UInt32) (sym : Bytes) (price : UInt32) (extra : Bytes) :
    decode (Enc.add locate ts ref side shares sym price ++ extra) = some (.add locate ts ref side shares price) := by
  have h : Fields (messageLength (ch 'A')) ([(32, beBytes 4 price.toNat), (24, padded 8 (cstr sym)),
      (20, beBytes 4 shares.toNat), (19, [side]), (11, beBytes 8 ref.toNat)] ++ headerFields (ch 'A') locate ts)
      (Enc.add locate ts ref side shares sym price) := by
    have h0 := header_fields (ch 'A') locate ts (by decide)
    have h1 := h0.poke 11 (beBytes 8 ref.toNat) (by simp [messageLength]) (by simp [headerFields])
    have h2 := h1.poke 19 [side] (by simp [messageLength]) (by simp [headerFields])
    have h3 := h2.poke 20 (beBytes 4 shares.toNat) (by simp [messageLength]) (by simp [headerFields])
    have h4 := h3.putPadded 24 8 (by simp [messageLength]) sym (by simp [headerFields])
    exact h4.poke _ _ (by simp [messageLength]) (by simp [headerFields])
  have hat := h.append extra
  simp only [List.forall_mem_append, List.forall_mem_cons] at hat
  obtain ⟨⟨hprice, -, hshares, hside, href, -⟩, -⟩ := hat
  rw [h.decode (by decide) hts]
  show some (Msg.add locate ts (be64 _ 11) (byteAt _ 19) (be32 _ 20) (be32 _ 32)) = _
  rw [href.be64, hside.byte, hshares.be32, hprice.be32]

theorem decode_executed (ref : UInt64) (shares : UInt32) (matchNo : UInt64) (extra : Bytes) :
    decode (Enc.executed locate ts ref shares matchNo ++ extra) = some (.executed locate ts ref shares) := by
  have h : Fields (messageLength (ch 'E')) ([(23, beBytes 8 matchNo.toNat), (19, beBytes 4 shares.toNat),
      (11, beBytes 8 ref.toNat)] ++ headerFields (ch 'E') locate ts) (Enc.executed locate ts ref shares matchNo) := by
    have h0 := header_fields (ch 'E') locate ts (by decide)
    have h1 := h0.poke 11 (beBytes 8 ref.toNat) (by simp [messageLength]) (by simp [headerFields])
    have h2 := h1.poke 19 (beBytes 4 shares.toNat) (by simp [messageLength]) (by simp [headerFields])
    exact h2.poke _ _ (by simp [messageLength]) (by simp [headerFields])
  have hat := h.append extra
  simp only [List.forall_mem_append, List.forall_mem_cons] at hat
  obtain ⟨⟨-, hshares, href, -⟩, -⟩ := hat
  rw [h.decode (by decide) hts]
  show some (Msg.executed locate ts (be64 _ 11) (be32 _ 19)) = _
  rw [href.be64, hshares.be32]

theorem decode_executedPrice (ref : UInt64) (shares : UInt32) (printable : Bool) (price : UInt32) (extra : Bytes) :
    decode (Enc.executedPrice locate ts ref shares printable price ++ extra) =
      some (.executedPrice locate ts ref shares printable price) := by
  have h : Fields (messageLength (ch 'C')) ([(32, beBytes 4 price.toNat), (31, [if printable then ch 'Y' else ch 'N']),
      (23, beBytes 8 (1 : UInt64).toNat), (19, beBytes 4 shares.toNat), (11, beBytes 8 ref.toNat)] ++
      headerFields (ch 'C') locate ts) (Enc.executedPrice locate ts ref shares printable price) := by
    have h0 := header_fields (ch 'C') locate ts (by decide)
    have h1 := h0.poke 11 (beBytes 8 ref.toNat) (by simp [messageLength]) (by simp [headerFields])
    have h2 := h1.poke 19 (beBytes 4 shares.toNat) (by simp [messageLength]) (by simp [headerFields])
    have h3 := h2.poke 23 (beBytes 8 (1 : UInt64).toNat) (by simp [messageLength]) (by simp [headerFields])
    have h4 := h3.poke 31 [if printable then ch 'Y' else ch 'N'] (by simp [messageLength])
      (by simp [headerFields])
    exact h4.poke _ _ (by simp [messageLength]) (by simp [headerFields])
  have hat := h.append extra
  simp only [List.forall_mem_append, List.forall_mem_cons] at hat
  obtain ⟨⟨hprice, hprint, -, hshares, href, -⟩, -⟩ := hat
  have hflag : ((if printable then ch 'Y' else ch 'N') == ch 'Y') = printable := by cases printable <;> decide
  rw [h.decode (by decide) hts]
  show some (Msg.executedPrice locate ts (be64 _ 11) (be32 _ 19) (byteAt _ 31 == ch 'Y') (be32 _ 32)) = _
  rw [href.be64, hshares.be32, hprint.byte, hflag, hprice.be32]

theorem decode_cancel (ref : UInt64) (shares : UInt32) (extra : Bytes) :
    decode (Enc.cancel locate ts ref shares ++ extra) = some (.cancel locate ts ref shares) := by
  have h : Fields (messageLength (ch 'X')) ([(19, beBytes 4 shares.toNat), (11, beBytes 8 ref.toNat)] ++
      headerFields (ch 'X') locate ts) (Enc.cancel locate ts ref shares) := by
    have h0 := header_fields (ch 'X') locate ts (by decide)
    have h1 := h0.poke 11 (beBytes 8 ref.toNat) (by simp [messageLength]) (by simp [headerFields])
    exact h1.poke _ _ (by simp [messageLength]) (by simp [headerFields])
  have hat := h.append extra
  simp only [List.forall_mem_append, List.forall_mem_cons] at hat
  obtain ⟨⟨hshares, href, -⟩, -⟩ := hat
  rw [h.decode (by decide) hts]
  show some (Msg.cancel locate ts (be64 _ 11) (be32 _ 19)) = _
  rw [href.be64, hshares.be32]

theorem decode_del (ref : UInt64) (extra : Bytes) :
    decode (Enc.del locate ts ref ++ extra) = some (.delete locate ts ref) := by
  have h : Fields (messageLength (ch 'D')) ([(11, beBytes 8 ref.toNat)] ++ headerFields (ch 'D') locate ts)
      (Enc.del locate ts ref) := (header_fields _ _ _ (by decide)).poke _ _ (by simp [messageLength]) (by simp [headerFields])
  have hat := h.append extra
  simp only [List.forall_mem_append, List.forall_mem_cons] at hat
  obtain ⟨⟨href, -⟩, -⟩ := hat
  rw [h.decode (by decide) hts]
  show some (Msg.delete locate ts (be64 _ 11)) = _
  rw [href.be64]

theorem decode_replace (oldRef newRef : UInt64) (shares price : UInt32) (extra : Bytes) :
    decode (Enc.replace locate ts oldRef newRef shares price ++ extra) =
      some (.replace locate ts oldRef newRef shares price) := by
  have h : Fields (messageLength (ch 'U')) ([(31, beBytes 4 price.toNat), (27, beBytes 4 shares.toNat),
      (19, beBytes 8 newRef.toNat), (11, beBytes 8 oldRef.toNat)] ++ headerFields (ch 'U') locate ts)
      (Enc.replace locate ts oldRef newRef shares price) := by
    have h0 := header_fields (ch 'U') locate ts (by decide)
    have h1 := h0.poke 11 (beBytes 8 oldRef.toNat) (by simp [messageLength]) (by simp [headerFields])
    have h2 := h1.poke 19 (beBytes 8 newRef.toNat) (by simp [messageLength]) (by simp [headerFields])
    have h3 := h2.poke 27 (beBytes 4 shares.toNat) (by simp [messageLength]) (by simp [headerFields])
    exact h3.poke _ _ (by simp [messageLength]) (by simp [headerFields])
  have hat := h.append extra
  simp only [List.forall_mem_append, List.forall_mem_cons] at hat
  obtain ⟨⟨hprice, hshares, hnew, hold, -⟩, -⟩ := hat
  rw [h.decode (by decide) hts]
  show some (Msg.replace locate ts (be64 _ 11) (be64 _ 19) (be32 _ 27) (be32 _ 31)) = _
  rw [hold.be64, hnew.be64, hshares.be32, hprice.be32]

theorem decode_trade (hsym : 0 ∉ sym) (side : UInt8) (shares price : UInt32) (extra : Bytes) :
    decode (Enc.trade locate ts side shares sym price ++ extra) =
      some (.trade locate ts side shares (symbolKey sym) price) := by
  have h : Fields (messageLength (ch 'P')) ([(36, beBytes 8 (1 : UInt64).toNat), (32, beBytes 4 price.toNat),
      (24, padded 8 (cstr sym)), (20, beBytes 4 shares.toNat), (19, [side]), (11, beBytes 8 (0 : UInt64).toNat)] ++
      headerFields (ch 'P') locate ts) (Enc.trade locate ts side shares sym price) := by
    have h0 := header_fields (ch 'P') locate ts (by decide)
    have h1 := h0.poke 11 (beBytes 8 (0 : UInt64).toNat) (by simp [messageLength]) (by simp [headerFields])
    have h2 := h1.poke 19 [side] (by simp [messageLength]) (by simp [headerFields])
    have h3 := h2.poke 20 (beBytes 4 shares.toNat) (by simp [messageLength]) (by simp [headerFields])
    have h4 := h3.putPadded 24 8 (by simp [messageLength]) sym (by simp [headerFields])
    have h5 := h4.poke 32 (beBytes 4 price.toNat) (by simp [messageLength]) (by simp [headerFields])
    exact h5.poke _ _ (by simp [messageLength]) (by simp [headerFields])
  have hat := h.append extra
  simp only [List.forall_mem_append, List.forall_mem_cons] at hat
  obtain ⟨⟨-, hprice, hkey, hshares, hside, -⟩, -⟩ := hat
  rw [h.decode (by decide) hts]
  show some (Msg.trade locate ts (byteAt _ 19) (be32 _ 20) (stockKey _ 24) (be32 _ 32)) = _
  rw [hside.byte, hshares.be32, hkey.stockKey, hprice.be32, cstr_eq_self hsym]

theorem decode_cross (hsym : 0 ∉ sym) (shares : UInt64) (price : UInt32) (type : UInt8) (extra : Bytes) :
    decode (Enc.cross locate ts shares sym price type ++ extra) =
      some (.cross locate ts shares (symbolKey sym) price type) := by
  have h : Fields (messageLength (ch 'Q')) ([(39, [type]), (31, beBytes 8 (1 : UInt64).toNat), (27, beBytes 4 price.toNat),
      (19, padded 8 (cstr sym)), (11, beBytes 8 shares.toNat)] ++ headerFields (ch 'Q') locate ts)
      (Enc.cross locate ts shares sym price type) := by
    have h0 := header_fields (ch 'Q') locate ts (by decide)
    have h1 := h0.poke 11 (beBytes 8 shares.toNat) (by simp [messageLength]) (by simp [headerFields])
    have h2 := h1.putPadded 19 8 (by simp [messageLength]) sym (by simp [headerFields])
    have h3 := h2.poke 27 (beBytes 4 price.toNat) (by simp [messageLength]) (by simp [headerFields])
    have h4 := h3.poke 31 (beBytes 8 (1 : UInt64).toNat) (by simp [messageLength]) (by simp [headerFields])
    exact h4.poke _ _ (by simp [messageLength]) (by simp [headerFields])
  have hat := h.append extra
  simp only [List.forall_mem_append, List.forall_mem_cons] at hat
  obtain ⟨⟨htype, -, hprice, hkey, hshares, -⟩, -⟩ := hat
  rw [h.decode (by decide) hts]
  show some (Msg.cross locate ts (be64 _ 11) (stockKey _ 19) (be32 _ 27) (byteAt _ 39)) = _
  rw [hshares.be64, hkey.stockKey, hprice.be32, htype.byte, cstr_eq_self hsym]

end Messages

/-! ## Reads -/

/-- `n` bytes of a memory, as `beNat`. -/
def beNatMem (mem : Nat → Option UInt8) (i : Nat) : Nat → Option Nat
  | 0 => some 0
  | n + 1 => do
    let v ← beNatMem mem i n
    let b ← mem (i + n)
    return v * 256 + b.toNat

def leNatMem (mem : Nat → Option UInt8) (i : Nat) : Nat → Option Nat
  | 0 => some 0
  | n + 1 => do
    let b ← mem i
    let v ← leNatMem mem (i + 1) n
    return b.toNat + 256 * v

/-- The `n` bytes from `i`. -/
def bytesMem (mem : Nat → Option UInt8) (i : Nat) : Nat → Option Bytes
  | 0 => some []
  | n + 1 => do
    let b ← mem i
    let bs ← bytesMem mem (i + 1) n
    return b :: bs

def be16Mem (mem : Nat → Option UInt8) (i : Nat) : Option UInt16 := (beNatMem mem i 2).map .ofNat

def be32Mem (mem : Nat → Option UInt8) (i : Nat) : Option UInt32 := (beNatMem mem i 4).map .ofNat

def be64Mem (mem : Nat → Option UInt8) (i : Nat) : Option UInt64 := (beNatMem mem i 8).map .ofNat

def be48Mem (mem : Nat → Option UInt8) (i : Nat) : Option UInt64 := do
  let hi ← be16Mem mem i
  let lo ← be32Mem mem (i + 2)
  return hi.toUInt64 <<< 32 ||| lo.toUInt64

def stockKeyMem (mem : Nat → Option UInt8) (i : Nat) : Option UInt64 := (leNatMem mem i 8).map .ofNat

/-- `decode` of `len` bytes of a memory. The outer `none`: a read outside of the memory. -/
def decodeMem (mem : Nat → Option UInt8) (len : Nat) : Option (Option Msg) := do
  if len < 11 then return none
  let type ← mem 0
  let need := messageLength type
  if need = 0 ∨ len < need then return none
  let locate ← be16Mem mem 1
  let ts ← be48Mem mem 5
  if type = ch 'A' ∨ type = ch 'F' then
    return some (.add locate ts (← be64Mem mem 11) (← mem 19) (← be32Mem mem 20) (← be32Mem mem 32))
  else if type = ch 'E' then return some (.executed locate ts (← be64Mem mem 11) (← be32Mem mem 19))
  else if type = ch 'C' then
    return some (.executedPrice locate ts (← be64Mem mem 11) (← be32Mem mem 19) ((← mem 31) == ch 'Y') (← be32Mem mem 32))
  else if type = ch 'X' then return some (.cancel locate ts (← be64Mem mem 11) (← be32Mem mem 19))
  else if type = ch 'D' then return some (.delete locate ts (← be64Mem mem 11))
  else if type = ch 'U' then
    return some (.replace locate ts (← be64Mem mem 11) (← be64Mem mem 19) (← be32Mem mem 27) (← be32Mem mem 31))
  else if type = ch 'P' then
    return some (.trade locate ts (← mem 19) (← be32Mem mem 20) (← stockKeyMem mem 24) (← be32Mem mem 32))
  else if type = ch 'Q' then
    return some (.cross locate ts (← be64Mem mem 11) (← stockKeyMem mem 19) (← be32Mem mem 27) (← mem 39))
  else if type = ch 'S' then return some (.systemEvent ts (← mem 11))
  else if type = ch 'R' then
    return some (.stockDirectory locate ts (← stockKeyMem mem 11) (← mem 19) (← mem 20) (← be32Mem mem 21))
  else if type = ch 'H' then
    return some (.tradingAction locate ts (← stockKeyMem mem 11) (← mem 19) (← bytesMem mem 21 4))
  else if type = ch 'Y' then return some (.regSho locate ts (← mem 19))
  else if type = ch 'B' then return some (.broken locate ts (← be64Mem mem 11))
  else return some .unused

section Reads

variable {mem : Nat → Option UInt8} {p : Bytes} {i n : Nat} (h : ∀ i < p.length, mem i = some (byteAt p i))

include h

theorem beNatMem_eq (hle : i + n ≤ p.length) : beNatMem mem i n = some (beNat p i n) := by
  induction n with
  | zero => rfl
  | succ n ih => rw [beNatMem, ih (by omega), h (i + n) (by omega)]; rfl

theorem leNatMem_eq (hle : i + n ≤ p.length) : leNatMem mem i n = some (leNat p i n) := by
  induction n generalizing i with
  | zero => rfl
  | succ n ih => rw [leNatMem, ih (by omega), h i (by omega)]; rfl

theorem be16Mem_eq (hle : i + 2 ≤ p.length) : be16Mem mem i = some (be16 p i) := by
  rw [be16Mem, beNatMem_eq h hle]; rfl

theorem be32Mem_eq (hle : i + 4 ≤ p.length) : be32Mem mem i = some (be32 p i) := by
  rw [be32Mem, beNatMem_eq h hle]; rfl

theorem be64Mem_eq (hle : i + 8 ≤ p.length) : be64Mem mem i = some (be64 p i) := by
  rw [be64Mem, beNatMem_eq h hle]; rfl

theorem be48Mem_eq (hle : i + 6 ≤ p.length) : be48Mem mem i = some (be48 p i) := by
  rw [be48Mem, be16Mem_eq h (by omega), be32Mem_eq h (by omega)]; rfl

theorem stockKeyMem_eq (hle : i + 8 ≤ p.length) : stockKeyMem mem i = some (stockKey p i) := by
  rw [stockKeyMem, leNatMem_eq h hle]; rfl

theorem bytesMem_eq (hle : i + n ≤ p.length) : bytesMem mem i n = some ((p.drop i).take n) := by
  induction n generalizing i with
  | zero => rfl
  | succ n ih =>
    have hi : i < p.length := by omega
    have hbyte : byteAt p i = p[i] := List.getD_eq_getElem _ _ hi
    rw [bytesMem, h i hi, ih (by omega), List.drop_eq_getElem_cons hi, List.take_succ_cons, hbyte]
    rfl

/-- The decoder reads within the message. -/
theorem decodeMem_eq : decodeMem mem p.length = some (decode p) := by
  rw [decode_eq]
  unfold decodeMem
  by_cases hshort : p.length < 11
  · rw [if_pos hshort, if_pos (.inl hshort)]
    rfl
  have h0 := h 0 (by omega)
  simp only [if_neg hshort, h0, Option.bind_eq_bind, Option.bind_some]
  by_cases hneed : messageLength (byteAt p 0) = 0 ∨ p.length < messageLength (byteAt p 0)
  · rw [if_pos hneed, if_pos (.inr hneed)]
    rfl
  rw [if_neg hneed, if_neg (not_or.mpr ⟨hshort, hneed⟩), be16Mem_eq h (by omega), be48Mem_eq h (by omega)]
  have hlen : messageLength (byteAt p 0) ≤ p.length := by omega
  simp only [Option.bind_some, dispatch]
  generalize byteAt p 0 = t at hlen
  have hbound : ∀ {c : UInt8} {k : Nat}, t = c → messageLength c = k → k ≤ p.length := by
    rintro c k rfl rfl
    exact hlen
  by_cases hadd : t = ch 'A' ∨ t = ch 'F'
  · have hk : 36 ≤ p.length := by
      rcases hadd with ht | ht
      · exact hbound ht rfl
      · exact le_trans (by decide) (hbound ht rfl)
    rw [if_pos hadd, if_pos hadd, be64Mem_eq h (by omega), h 19 (by omega), be32Mem_eq h (by omega), be32Mem_eq h (by omega)]
    rfl
  rw [if_neg hadd, if_neg hadd]
  by_cases hexec : t = ch 'E'
  · have hk : 31 ≤ p.length := hbound hexec rfl
    rw [if_pos hexec, if_pos hexec, be64Mem_eq h (by omega), be32Mem_eq h (by omega)]
    rfl
  rw [if_neg hexec, if_neg hexec]
  by_cases hprice : t = ch 'C'
  · have hk : 36 ≤ p.length := hbound hprice rfl
    rw [if_pos hprice, if_pos hprice, be64Mem_eq h (by omega), be32Mem_eq h (by omega), h 31 (by omega), be32Mem_eq h (by omega)]
    rfl
  rw [if_neg hprice, if_neg hprice]
  by_cases hcancel : t = ch 'X'
  · have hk : 23 ≤ p.length := hbound hcancel rfl
    rw [if_pos hcancel, if_pos hcancel, be64Mem_eq h (by omega), be32Mem_eq h (by omega)]
    rfl
  rw [if_neg hcancel, if_neg hcancel]
  by_cases hdelete : t = ch 'D'
  · have hk : 19 ≤ p.length := hbound hdelete rfl
    rw [if_pos hdelete, if_pos hdelete, be64Mem_eq h (by omega)]
    rfl
  rw [if_neg hdelete, if_neg hdelete]
  by_cases hreplace : t = ch 'U'
  · have hk : 35 ≤ p.length := hbound hreplace rfl
    rw [if_pos hreplace, if_pos hreplace, be64Mem_eq h (by omega), be64Mem_eq h (by omega), be32Mem_eq h (by omega), be32Mem_eq h (by omega)]
    rfl
  rw [if_neg hreplace, if_neg hreplace]
  by_cases htrade : t = ch 'P'
  · have hk : 44 ≤ p.length := hbound htrade rfl
    rw [if_pos htrade, if_pos htrade, h 19 (by omega), be32Mem_eq h (by omega), stockKeyMem_eq h (by omega), be32Mem_eq h (by omega)]
    rfl
  rw [if_neg htrade, if_neg htrade]
  by_cases hcross : t = ch 'Q'
  · have hk : 40 ≤ p.length := hbound hcross rfl
    rw [if_pos hcross, if_pos hcross, be64Mem_eq h (by omega), stockKeyMem_eq h (by omega), be32Mem_eq h (by omega), h 39 (by omega)]
    rfl
  rw [if_neg hcross, if_neg hcross]
  by_cases hsystem : t = ch 'S'
  · have hk : 12 ≤ p.length := hbound hsystem rfl
    rw [if_pos hsystem, if_pos hsystem, h 11 (by omega)]
    rfl
  rw [if_neg hsystem, if_neg hsystem]
  by_cases hdirectory : t = ch 'R'
  · have hk : 39 ≤ p.length := hbound hdirectory rfl
    rw [if_pos hdirectory, if_pos hdirectory, stockKeyMem_eq h (by omega), h 19 (by omega), h 20 (by omega), be32Mem_eq h (by omega)]
    rfl
  rw [if_neg hdirectory, if_neg hdirectory]
  by_cases haction : t = ch 'H'
  · have hk : 25 ≤ p.length := hbound haction rfl
    rw [if_pos haction, if_pos haction, stockKeyMem_eq h (by omega), h 19 (by omega), bytesMem_eq h (by omega)]
    rfl
  rw [if_neg haction, if_neg haction]
  by_cases hregsho : t = ch 'Y'
  · have hk : 20 ≤ p.length := hbound hregsho rfl
    rw [if_pos hregsho, if_pos hregsho, h 19 (by omega)]
    rfl
  rw [if_neg hregsho, if_neg hregsho]
  by_cases hbroken : t = ch 'B'
  · have hk : 19 ≤ p.length := hbound hbroken rfl
    rw [if_pos hbroken, if_pos hbroken, be64Mem_eq h (by omega)]
    rfl
  rw [if_neg hbroken, if_neg hbroken]
  rfl

end Reads

/-! ## Calls -/

/-- The calls on the handler. -/
def calls (p : Bytes) : List Msg :=
  match decode p with
  | none => []
  | some .unused => []
  | some m => [m]

theorem calls_of_decode {p : Bytes} {m : Msg} (h : decode p = some m) (hm : m ≠ .unused) : calls p = [m] := by
  unfold calls
  rw [h]
  cases m with
  | unused => exact absurd rfl hm
  | _ => rfl

/-- A message is decoded to the fields that it was made of, whatever follows it; the decoder reads no byte behind the
message that it is given, makes one call at most, and none for a message that is cut short or unknown. -/
theorem decode_enc {ts : UInt64} (hts : ts.toNat < 2 ^ 48) {sym reason : Bytes} (hsym : 0 ∉ sym) (hreason : 0 ∉ reason)
    (locate : UInt16) (a b : UInt64) (x y : UInt32) (c : UInt8) (printable : Bool) (extra : Bytes) :
    (calls (Enc.systemEvent ts c ++ extra) = [.systemEvent ts c] ∧
      calls (Enc.stockDirectory locate ts sym c ++ extra) = [.stockDirectory locate ts (symbolKey sym) c (ch 'N') 100] ∧
      calls (Enc.tradingAction locate ts sym c reason ++ extra) =
        [.tradingAction locate ts (symbolKey sym) c (padded 4 reason)] ∧
      calls (Enc.add locate ts a c x sym y ++ extra) = [.add locate ts a c x y] ∧
      calls (Enc.executed locate ts a x b ++ extra) = [.executed locate ts a x] ∧
      calls (Enc.executedPrice locate ts a x printable y ++ extra) = [.executedPrice locate ts a x printable y] ∧
      calls (Enc.cancel locate ts a x ++ extra) = [.cancel locate ts a x] ∧
      calls (Enc.del locate ts a ++ extra) = [.delete locate ts a] ∧
      calls (Enc.replace locate ts a b x y ++ extra) = [.replace locate ts a b x y] ∧
      calls (Enc.trade locate ts c x sym y ++ extra) = [.trade locate ts c x (symbolKey sym) y] ∧
      calls (Enc.cross locate ts a sym y c ++ extra) = [.cross locate ts a (symbolKey sym) y c]) ∧
    (sym.map toUpper = sym → symbolKey sym = Master.makeKey sym) ∧
    (∀ (p : Bytes) (mem : Nat → Option UInt8), (∀ i < p.length, mem i = some (byteAt p i)) →
      decodeMem mem p.length = some (decode p)) ∧
    ∀ p : Bytes, (calls p).length ≤ 1 ∧
      (p.length < 11 ∨ messageLength (byteAt p 0) = 0 ∨ p.length < messageLength (byteAt p 0) → calls p = []) := by
  refine ⟨⟨?_, ?_, ?_, ?_, ?_, ?_, ?_, ?_, ?_, ?_, ?_⟩, symbolKey_makeKey, fun p mem h => decodeMem_eq h, fun p => ⟨?_, fun hbad => ?_⟩⟩
  · exact calls_of_decode (decode_systemEvent hts c extra) nofun
  · exact calls_of_decode (decode_stockDirectory hts hsym c extra) nofun
  · exact calls_of_decode (decode_tradingAction hts hsym hreason c extra) nofun
  · exact calls_of_decode (decode_add hts a c x sym y extra) nofun
  · exact calls_of_decode (decode_executed hts a x b extra) nofun
  · exact calls_of_decode (decode_executedPrice hts a x printable y extra) nofun
  · exact calls_of_decode (decode_cancel hts a x extra) nofun
  · exact calls_of_decode (decode_del hts a extra) nofun
  · exact calls_of_decode (decode_replace hts a b x y extra) nofun
  · exact calls_of_decode (decode_trade hts hsym c x y extra) nofun
  · exact calls_of_decode (decode_cross hts hsym a y c extra) nofun
  · unfold calls
    split <;> simp
  · rw [calls, decode_eq, if_pos hbad]

/-- An add order for a symbol in capitals, with a byte after it. -/
theorem decode_enc_add :
    calls (Enc.add 7 1000 42 (ch 'B') 100 (lit "ABCD") 123400 ++ [255]) = [.add 7 1000 42 (ch 'B') 100 123400] ∧
      symbolKey (lit "ABCD") = Master.makeKey (lit "ABCD") := by
  obtain ⟨⟨-, -, -, hadd, -⟩, hkey, -⟩ := @decode_enc 1000 (by decide) (lit "ABCD") (lit "T1") (by decide) (by decide) 7 42 0 100 123400 (ch 'B') true [255]
  exact ⟨hadd, hkey (by decide)⟩

end Stok.Itch
