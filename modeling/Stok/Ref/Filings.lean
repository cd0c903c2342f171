import Stok.Core.Ascii

/-!
# Filings

Form classes, the items of an 8-K and the dilution flags of an issuer's recent filings,
from `ref/filings.cpp`. The history is one list of entries in the order they were
added; the source keeps one such list an issuer.
-/

namespace Stok

inductive FormClass where
  | other | s1 | s3 | prospectus | effect | preProxy | defProxy | s8 | form8K | form6K | form10Q
  | form10K | nt
  deriving DecidableEq, Repr

/-- Number and label of the 8-K items, by bit. -/
def kItems : List (Nat × Nat × Bytes) :=
  [(1, 1, lit "1.01"), (1, 2, lit "1.02"), (1, 3, lit "1.03"), (1, 4, lit "1.04"),
   (1, 5, lit "1.05"), (2, 1, lit "2.01"), (2, 2, lit "2.02"), (2, 3, lit "2.03"),
   (2, 4, lit "2.04"), (2, 5, lit "2.05"), (2, 6, lit "2.06"), (3, 1, lit "3.01"),
   (3, 2, lit "3.02"), (3, 3, lit "3.03"), (4, 1, lit "4.01"), (4, 2, lit "4.02"),
   (5, 1, lit "5.01"), (5, 2, lit "5.02"), (5, 3, lit "5.03"), (5, 4, lit "5.04"),
   (5, 5, lit "5.05"), (5, 6, lit "5.06"), (5, 7, lit "5.07"), (5, 8, lit "5.08"),
   (6, 1, lit "6.01"), (6, 2, lit "6.02"), (6, 3, lit "6.03"), (6, 4, lit "6.04"),
   (6, 5, lit "6.05"), (7, 1, lit "7.01"), (8, 1, lit "8.01"), (9, 1, lit "9.01")]

/-- The bit of an item, `none` for the source's `-1`. -/
def form8kItemBit (major minor : Nat) : Option Nat :=
  kItems.findIdx? fun it => it.1 = major ∧ it.2.1 = minor

/-- Bit `i` of a mask. -/
def hasBit (mask : UInt32) (i : Nat) : Bool := mask &&& (1 <<< UInt32.ofNat i) != 0

theorem getLsbD_bit {i k : Nat} (hi : i < 32) (hk : k < 32) :
    (1 <<< UInt32.ofNat i : UInt32).toBitVec.getLsbD k = decide (k = i) := by
  have hi' : (UInt32.ofNat i).toBitVec.toNat % 32 = i := by
    show (i % 2 ^ 32) % 32 = i
    omega
  rw [UInt32.toBitVec_shiftLeft]
  simp only [BitVec.shiftLeft_eq', BitVec.toNat_umod, BitVec.getLsbD_shiftLeft, hi',
    show (32 : BitVec 32).toNat = 32 from rfl, UInt32.toBitVec_one, BitVec.getLsbD_one]
  rcases Nat.lt_trichotomy k i with h | rfl | h
  · simp [h, h.ne]
  · simp [hk]
  · have h1 : k - i ≠ 0 := by omega
    simp [h1, h.ne']

theorem hasBit_eq (m : UInt32) {k : Nat} (hk : k < 32) : hasBit m k = m.toBitVec.getLsbD k := by
  have hand : ∀ i < 32, (m &&& (1 <<< UInt32.ofNat k)).toBitVec.getLsbD i =
      (m.toBitVec.getLsbD i && decide (i = k)) := by
    intro i hi
    rw [UInt32.toBitVec_and, BitVec.getLsbD_and, getLsbD_bit hk hi]
  unfold hasBit
  rw [Bool.eq_iff_iff, bne_iff_ne]
  constructor
  · intro hne
    by_contra hbit
    refine hne (UInt32.eq_of_toBitVec_eq (BitVec.eq_of_getLsbD_eq fun i hi => ?_))
    rw [hand i hi]
    rcases eq_or_ne i k with rfl | hik
    · simp only [Bool.not_eq_true] at hbit
      simp [hbit]
    · simp [hik]
  · intro hbit hz
    have := hand k hk
    rw [hz, hbit] at this
    simp at this

/-- Setting a bit leaves the others. -/
theorem hasBit_or (m : UInt32) {i k : Nat} (hi : i < 32) (hk : k < 32) :
    hasBit (m ||| 1 <<< UInt32.ofNat i) k = (hasBit m k || decide (k = i)) := by
  rw [hasBit_eq _ hk, hasBit_eq _ hk, UInt32.toBitVec_or, BitVec.getLsbD_or, getLsbD_bit hi hk]

/-- Names joined by commas. -/
def commaList : List Bytes → Bytes
  | [] => []
  | [x] => x
  | x :: xs => x ++ ch ',' :: commaList xs

/-- The names of the bits of a mask. -/
def flagNames (names : List Bytes) (mask : UInt32) : Bytes :=
  commaList ((names.zipIdx.filter fun (_, i) => hasBit mask i).map (·.1))

def form8kItemsStr (mask : UInt32) : Bytes := flagNames (kItems.map (·.2.2)) mask

def kItem301 : UInt32 := 1 <<< (11 : UInt32)
def kItem302 : UInt32 := 1 <<< (12 : UInt32)
def kItem503 : UInt32 := 1 <<< (18 : UInt32)

def kFlagOfferingRecent : UInt32 := 1 <<< (0 : UInt32)
def kFlagEffectRecent : UInt32 := 1 <<< (1 : UInt32)
def kFlagS1Pending : UInt32 := 1 <<< (2 : UInt32)
def kFlagShelf : UInt32 := 1 <<< (3 : UInt32)
def kFlagReverseSplitRisk : UInt32 := 1 <<< (4 : UInt32)
def kFlagLateFiler : UInt32 := 1 <<< (5 : UInt32)
def kFlagUnregisteredSale : UInt32 := 1 <<< (6 : UInt32)
def kFlagDeficiency : UInt32 := 1 <<< (7 : UInt32)
def kFlagReverseSplitDone : UInt32 := 1 <<< (8 : UInt32)

def dilutionFlagsStr : UInt32 → Bytes :=
  flagNames [lit "offering", lit "effect", lit "s1", lit "shelf", lit "rs_proxy",
    lit "late_filer", lit "item3.02", lit "deficiency", lit "item5.03"]

def classifyForm (f : Bytes) : FormClass :=
  let f := trim f
  let is (xs : List String) : Bool := xs.any fun x => iequals f (lit x)
  let starts (x : String) : Bool := istartsWith f (lit x)
  if is ["S-1", "S-1/A", "F-1", "F-1/A", "S-1MEF", "F-1MEF"] then .s1
  else if is ["S-3", "S-3/A", "F-3", "F-3/A", "S-3ASR", "F-3ASR", "S-3MEF"] then .s3
  else if starts "424B" then .prospectus
  else if is ["EFFECT"] then .effect
  else if is ["PRE 14A", "PRE 14C"] then .preProxy
  else if is ["DEF 14A", "DEF 14C"] then .defProxy
  else if starts "S-8" then .s8
  else if is ["8-K", "8-K/A"] then .form8K
  else if is ["6-K", "6-K/A"] then .form6K
  else if is ["10-Q", "10-Q/A"] then .form10Q
  else if is ["10-K", "10-K/A", "20-F", "40-F"] then .form10K
  else if starts "NT 10-" || starts "NT 20-" then .nt
  else .other

structure DilutionPolicy where
  offeringWindowDays : Int := 10
  s1WindowDays : Int := 180
  shelfWindowDays : Int := 3 * 365
  proxyWindowDays : Int := 90
  lateFilerDays : Int := 120
  item302Days : Int := 30
  item301Days : Int := 180
  item503Days : Int := 60
  deriving DecidableEq, Repr

namespace FilingsHistory

structure Entry where
  cik : UInt32
  day : Int
  cls : FormClass
  items : UInt32
  deriving DecidableEq, Repr

/-- The flags of one entry that is `age` days old. -/
def Entry.flags (p : DilutionPolicy) (age : Int) (e : Entry) : UInt32 :=
  if age < 0 then 0
  else
    match e.cls with
    | .prospectus => if age ≤ p.offeringWindowDays then kFlagOfferingRecent else 0
    | .effect => if age ≤ p.offeringWindowDays then kFlagEffectRecent else 0
    | .s1 => if age ≤ p.s1WindowDays then kFlagS1Pending else 0
    | .s3 => if age ≤ p.shelfWindowDays then kFlagShelf else 0
    | .preProxy => if age ≤ p.proxyWindowDays then kFlagReverseSplitRisk else 0
    | .nt => if age ≤ p.lateFilerDays then kFlagLateFiler else 0
    | .form8K | .form6K =>
      (if e.items &&& kItem302 ≠ 0 ∧ age ≤ p.item302Days then kFlagUnregisteredSale else 0) |||
      (if e.items &&& kItem301 ≠ 0 ∧ age ≤ p.item301Days then kFlagDeficiency else 0) |||
      (if e.items &&& kItem503 ≠ 0 ∧ age ≤ p.item503Days then kFlagReverseSplitDone else 0)
    | _ => 0

end FilingsHistory

structure FilingsHistory where
  entries : List FilingsHistory.Entry := []
  deriving DecidableEq, Repr

namespace FilingsHistory

/-- Adds a filing, or the items of one that is there already. -/
def addEntry (e : Entry) : List Entry → List Entry
  | [] => [e]
  | x :: xs =>
    if x.cik = e.cik ∧ x.day = e.day ∧ x.cls = e.cls then
      { x with items := x.items ||| e.items } :: xs
    else x :: addEntry e xs

def add (h : FilingsHistory) (cik : UInt32) (day : Int) (cls : FormClass) (items : UInt32) :
    FilingsHistory :=
  if cik = 0 then h else { entries := addEntry ⟨cik, day, cls, items⟩ h.entries }

def flags (h : FilingsHistory) (cik : UInt32) (today : Int) (p : DilutionPolicy) : UInt32 :=
  (h.entries.filter (·.cik = cik)).foldl (fun f e => f ||| e.flags p (today - e.day)) 0

/-- The entries filed strictly before a day. -/
def before (h : FilingsHistory) (day : Int) : FilingsHistory :=
  { entries := h.entries.filter (·.day < day) }

end FilingsHistory

end Stok
