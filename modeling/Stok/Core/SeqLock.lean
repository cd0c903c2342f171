import Mathlib
import Stok.Lib.Interleaving

/-!
# The sequence lock (`core/seqlock.hpp`)

One writer and any number of readers over sequentially consistent memory. The protected value
is `size` words; the writer stores single words between `begin_write` and `end_write`, and a
reader in `load_prefix` copies the first `n` words, each by a step of its own and in any order,
between its two loads of `seq_`. `load` is `load_prefix` of all words.

`current` is the value as the last completed write left it (the initial one before any), and
`writes` the number of completed writes; an attempt of a reader records that number as `since`,
and its answer the number of writes completed `during` the attempt.
-/

namespace Stok.SeqLock

open Stok.Lib

/-- Where the writer is. -/
inductive Writer where
  | idle
  /-- In `begin_write`, `seq_` loaded. -/
  | beginning (v : UInt32)
  | writing
  /-- In `end_write`, `seq_` loaded. -/
  | ending (v : UInt32)
  deriving DecidableEq, Repr

/-- Where a reader is, in a call for the first `n` words. -/
inductive Reader (W : Type*) where
  | idle
  /-- About to load `seq_` for the first time in an attempt. -/
  | start (n : Nat)
  /-- Has loaded `s1` and copied the words of `out`. -/
  | copying (n : Nat) (s1 : UInt32) (since : Nat) (out : Nat → Option W)
  | returned (n : Nat) (during : Nat) (out : Nat → Option W)

structure State (ι W : Type*) where
  seq : UInt32
  data : Nat → W
  writer : Writer
  reader : ι → Reader W
  current : Nat → W
  writes : Nat

inductive Act (ι W : Type*) where
  | beginLoad | beginStore | store (i : Nat) (v : W) | endLoad | endStore
  | call (r : ι) (n : Nat) | first (r : ι) | copy (r : ι) (i : Nat) | second (r : ι) | ret (r : ι)

variable {ι W : Type*}

def init (ι : Type*) (data : Nat → W) : State ι W :=
  { seq := 0, data, writer := .idle, reader := fun _ => .idle, current := data, writes := 0 }

def step [DecidableEq ι] (size : Nat) (s : State ι W) : Act ι W → Option (State ι W)
  | .beginLoad => if s.writer = .idle then some { s with writer := .beginning s.seq } else none
  | .beginStore =>
    match s.writer with
    | .beginning v => some { s with seq := v + 1, writer := .writing }
    | _ => none
  | .store i v =>
    if s.writer = .writing ∧ i < size then some { s with data := Function.update s.data i v }
    else none
  | .endLoad => if s.writer = .writing then some { s with writer := .ending s.seq } else none
  | .endStore =>
    match s.writer with
    | .ending v =>
      some { s with seq := v + 1, writer := .idle, current := s.data, writes := s.writes + 1 }
    | _ => none
  | .call r n =>
    match s.reader r with
    | .idle =>
      if n ≤ size then some { s with reader := Function.update s.reader r (.start n) } else none
    | _ => none
  | .first r =>
    match s.reader r with
    | .start n =>
      if s.seq &&& 1 = 1 then some s
      else some { s with reader := Function.update s.reader r
                           (.copying n s.seq s.writes fun _ => none) }
    | _ => none
  | .copy r i =>
    match s.reader r with
    | .copying n s1 since out =>
      if i < n then
        some { s with reader := Function.update s.reader r
                        (.copying n s1 since (Function.update out i (some (s.data i)))) }
      else none
    | _ => none
  | .second r =>
    match s.reader r with
    | .copying n s1 since out =>
      if ∀ i < n, (out i).isSome then
        some { s with reader := Function.update s.reader r
                        (if s1 = s.seq then .returned n (s.writes - since) out else .start n) }
      else none
    | _ => none
  | .ret r =>
    match s.reader r with
    | .returned _ _ _ => some { s with reader := Function.update s.reader r .idle }
    | _ => none

/-- The value of `seq_` the writer has loaded. -/
def Writer.loaded : Writer → Option UInt32
  | .beginning v | .ending v => some v
  | _ => none

/-- The stores of a write may be in the data. -/
def Writer.busy : Writer → Bool
  | .writing | .ending _ => true
  | _ => false

/-- The number of stores to `seq_` so far. -/
def State.count (s : State ι W) : Nat := 2 * s.writes + s.writer.busy.toNat

/-- An attempt began at an even count; while no write has begun since, it copied what is there. -/
def Reader.Ok (s : State ι W) : Reader W → Prop
  | .copying _ s1 since out =>
    s1 = .ofNat (2 * since) ∧ since ≤ s.writes ∧
    (s.count = 2 * since → ∀ i v, out i = some v → v = s.data i)
  | _ => True

/-- The counter wraps the number of stores to it, and between writes the data is the current
value. -/
structure Inv (s : State ι W) : Prop where
  seq : s.seq = .ofNat s.count
  loaded : ∀ v, s.writer.loaded = some v → v = s.seq
  current : s.writer.busy = false → s.current = s.data
  reader : ∀ r, (s.reader r).Ok s

theorem init_inv (data : Nat → W) : Inv (init ι data) :=
  ⟨rfl, nofun, fun _ => rfl, fun _ => trivial⟩

theorem ofNat_succ (n : Nat) : UInt32.ofNat n + 1 = .ofNat (n + 1) := by
  rw [← UInt32.toNat_inj, UInt32.toNat_add, UInt32.toNat_ofNat', UInt32.toNat_ofNat']
  simp

/-- The parity test on the wrapped counter is the parity of the count. -/
theorem odd_iff (n : Nat) : UInt32.ofNat n &&& 1 = 1 ↔ n % 2 = 1 := by
  have h : (UInt32.ofNat n &&& 1).toNat = n % 2 := by
    rw [UInt32.toNat_and, UInt32.toNat_ofNat', show (1 : UInt32).toNat = 2 ^ 1 - 1 from rfl,
      Nat.and_two_pow_sub_one_eq_mod, Nat.mod_mod_of_dvd _ (by decide)]
  rw [← UInt32.toNat_inj, h]
  rfl

/-- Equal wrapped counters less than `2 ^ 32` apart are equal counts. -/
theorem ofNat_inj_of_lt {m n : Nat} (hle : m ≤ n) (hlt : n < m + 2 ^ 32)
    (h : UInt32.ofNat m = UInt32.ofNat n) : m = n := by
  rw [← UInt32.toNat_inj, UInt32.toNat_ofNat', UInt32.toNat_ofNat'] at h
  omega

theorem Inv.even_idle {s : State ι W} (h : Inv s) (he : ¬ s.seq &&& 1 = 1) :
    s.writer.busy = false := by
  rw [h.seq, odd_iff, State.count] at he
  cases hb : s.writer.busy with
  | false => rfl
  | true => rw [hb, Bool.toNat_true] at he; omega

/-- A reader that finds `seq_` unchanged has copied the current value. -/
theorem Inv.second {s : State ι W} (h : Inv s) {r : ι} {n since : Nat} {s1 : UInt32}
    {out : Nat → Option W} (hr : s.reader r = .copying n s1 since out) (heq : s1 = s.seq)
    (hlt : s.writes - since < 2 ^ 31) {i : Nat} (hi : (out i).isSome) :
    out i = some (s.current i) := by
  have hok := h.reader r
  rw [hr] at hok
  obtain ⟨hs1, hle, hcopy⟩ := hok
  have hb := Bool.toNat_le s.writer.busy
  have hcount : 2 * since = s.count := by
    refine ofNat_inj_of_lt ?_ ?_ (by rw [← hs1, heq, h.seq])
    · rw [State.count]; omega
    · rw [State.count]; omega
  have hidle : s.writer.busy = false := by
    rw [State.count] at hcount
    cases hb : s.writer.busy with
    | false => rfl
    | true => rw [hb, Bool.toNat_true] at hcount; omega
  obtain ⟨v, hv⟩ := Option.isSome_iff_exists.mp hi
  rw [hv, hcopy hcount.symm i v hv, h.current hidle]

/-- Readers keep their promise when the count moves past where their attempts began. -/
theorem Reader.Ok.mono {s s' : State ι W} {p : Reader W} (h : p.Ok s) (hw : s.writes ≤ s'.writes)
    (hc : ∀ since ≤ s.writes, s'.count ≠ 2 * since) : p.Ok s' := by
  cases p with
  | copying n s1 since out =>
    obtain ⟨h1, hle, -⟩ := h
    exact ⟨h1, hle.trans hw, fun he => absurd he (hc since hle)⟩
  | _ => trivial

/-- The writer's loads of its own counter. -/
theorem Inv.writer_loads {s : State ι W} (h : Inv s) {p : Writer} (hb : p.busy = s.writer.busy)
    (hp : ∀ v, p.loaded = some v → v = s.seq) : Inv { s with writer := p } := by
  have hcount : State.count { s with writer := p } = s.count := by
    simp only [State.count, hb]
  refine ⟨h.seq.trans (by rw [hcount]), hp, fun hi => h.current (hb ▸ hi), fun r => ?_⟩
  have hok := h.reader r
  show (s.reader r).Ok _
  cases hr : s.reader r with
  | copying n s1 since out =>
    rw [hr] at hok
    exact ⟨hok.1, hok.2.1, fun he => hok.2.2 (hcount ▸ he)⟩
  | _ => trivial

theorem Inv.beginStore {s : State ι W} (h : Inv s) {v : UInt32} (hw : s.writer = .beginning v) :
    Inv { s with seq := v + 1, writer := .writing } := by
  have hv := h.loaded v (by rw [hw]; rfl)
  have hcount : s.count = 2 * s.writes := by rw [State.count, hw]; rfl
  refine ⟨?_, nofun, nofun, fun r => (h.reader r).mono le_rfl ?_⟩
  · rw [hv, h.seq, ofNat_succ, hcount]
    rfl
  · intro since _
    show 2 * s.writes + 1 ≠ 2 * since
    omega

theorem Inv.store {s : State ι W} (h : Inv s) (hw : s.writer = .writing) (i : Nat) (v : W) :
    Inv { s with data := Function.update s.data i v } := by
  have hb : s.writer.busy = true := by rw [hw]; rfl
  refine ⟨h.seq, h.loaded, fun hi => ?_, fun r => (h.reader r).mono le_rfl ?_⟩
  · exact absurd (hb.symm.trans hi) nofun
  · intro since _
    show 2 * s.writes + s.writer.busy.toNat ≠ 2 * since
    rw [hb, Bool.toNat_true]
    omega

theorem Inv.endStore {s : State ι W} (h : Inv s) {v : UInt32} (hw : s.writer = .ending v) :
    Inv { s with seq := v + 1, writer := .idle, current := s.data, writes := s.writes + 1 } := by
  have hv := h.loaded v (by rw [hw]; rfl)
  have hcount : s.count = 2 * s.writes + 1 := by rw [State.count, hw]; rfl
  refine ⟨?_, nofun, fun _ => rfl,
    fun r => (h.reader r).mono (Nat.le_succ _) ?_⟩
  · rw [hv, h.seq, ofNat_succ, hcount]
    rfl
  · intro since hle
    show 2 * (s.writes + 1) + 0 ≠ 2 * since
    omega

theorem Inv.reader_moves [DecidableEq ι] {s : State ι W} (h : Inv s) (r : ι) {p : Reader W}
    (hp : p.Ok s) : Inv { s with reader := Function.update s.reader r p } := by
  refine ⟨h.seq, h.loaded, h.current, fun r' => ?_⟩
  show (Function.update s.reader r p r').Ok s
  rcases eq_or_ne r' r with rfl | hne
  · rwa [Function.update_self]
  · rw [Function.update_of_ne hne]
    exact h.reader r'

theorem Inv.first {s : State ι W} (h : Inv s) (he : ¬ s.seq &&& 1 = 1) (n : Nat) :
    (Reader.copying n s.seq s.writes fun _ => none).Ok s := by
  have hb := h.even_idle he
  refine ⟨?_, le_rfl, fun _ _ _ => nofun⟩
  rw [h.seq, State.count, hb]
  rfl

theorem Reader.Ok.copy {s : State ι W} {n since : Nat} {s1 : UInt32} {out : Nat → Option W}
    (h : (Reader.copying n s1 since out).Ok s) (i : Nat) :
    (Reader.copying n s1 since (Function.update out i (some (s.data i)))).Ok s := by
  obtain ⟨h1, hle, hcopy⟩ := h
  refine ⟨h1, hle, fun hc j v hv => ?_⟩
  rcases eq_or_ne j i with rfl | hne
  · rw [Function.update_self] at hv
    exact (Option.some.inj hv).symm
  · rw [Function.update_of_ne hne] at hv
    exact hcopy hc j v hv

theorem Inv.step [DecidableEq ι] {size : Nat} {s s' : State ι W} {a : Act ι W} (h : Inv s)
    (hs : step size s a = some s') : Inv s' := by
  cases a with
  | beginLoad =>
    obtain ⟨hw, hs⟩ := Option.ite_none_right_eq_some.mp hs
    cases hs
    exact h.writer_loads (by rw [hw]; rfl) fun v hv => (Option.some.inj hv).symm
  | beginStore =>
    simp only [SeqLock.step] at hs
    split at hs <;> cases hs
    exact h.beginStore (by assumption)
  | store i v =>
    obtain ⟨⟨hw, -⟩, hs⟩ := Option.ite_none_right_eq_some.mp hs
    cases hs
    exact h.store hw i v
  | endLoad =>
    obtain ⟨hw, hs⟩ := Option.ite_none_right_eq_some.mp hs
    cases hs
    exact h.writer_loads (by rw [hw]; rfl) fun v hv => (Option.some.inj hv).symm
  | endStore =>
    simp only [SeqLock.step] at hs
    split at hs <;> cases hs
    exact h.endStore (by assumption)
  | call r n =>
    simp only [SeqLock.step] at hs
    split at hs <;> try cases hs
    obtain ⟨-, hs⟩ := Option.ite_none_right_eq_some.mp hs
    cases hs
    exact h.reader_moves r trivial
  | first r =>
    simp only [SeqLock.step] at hs
    split at hs <;> try cases hs
    split at hs <;> cases hs
    · exact h
    · exact h.reader_moves r (h.first (by assumption) _)
  | copy r i =>
    simp only [SeqLock.step] at hs
    split at hs <;> try cases hs
    rename_i hr
    obtain ⟨-, hs⟩ := Option.ite_none_right_eq_some.mp hs
    cases hs
    have hok := h.reader r
    rw [hr] at hok
    exact h.reader_moves r (hok.copy i)
  | second r =>
    simp only [SeqLock.step] at hs
    split at hs <;> try cases hs
    obtain ⟨-, hs⟩ := Option.ite_none_right_eq_some.mp hs
    cases hs
    refine h.reader_moves r ?_
    split <;> trivial
  | ret r =>
    simp only [SeqLock.step] at hs
    split at hs <;> cases hs
    exact h.reader_moves r trivial

/-- Reader `r` is inside a call, or has its answer. -/
def InCall (r : ι) (s : State ι W) : Prop :=
  match s.reader r with
  | .idle => False
  | _ => True

theorem update_returned [DecidableEq ι] {f : ι → Reader W} {r r' : ι} {p : Reader W} {n d : Nat}
    {out : Nat → Option W} (h : Function.update f r' p r = .returned n d out) :
    f r = .returned n d out ∨ r = r' ∧ p = .returned n d out := by
  rcases eq_or_ne r r' with rfl | hne
  · rw [Function.update_self] at h
    exact .inr ⟨rfl, h⟩
  · rw [Function.update_of_ne hne] at h
    exact .inl h

/-- What the reader's place was before a step that leaves it with an answer: the same, or at the
second load of an attempt with the counter unchanged and every word copied. -/
theorem returned_before [DecidableEq ι] {size : Nat} {s s' : State ι W} {a : Act ι W} {r : ι}
    {n d : Nat} {out : Nat → Option W} (hs : step size s a = some s')
    (hr : s'.reader r = .returned n d out) :
    s.reader r = .returned n d out ∨
    ∃ since, s.reader r = .copying n s.seq since out ∧ d = s.writes - since ∧
      ∀ i < n, (out i).isSome := by
  cases a with
  | beginLoad | store | endLoad =>
    obtain ⟨-, hs⟩ := Option.ite_none_right_eq_some.mp hs
    cases hs
    exact .inl hr
  | beginStore | endStore =>
    simp only [step] at hs
    split at hs <;> cases hs
    exact .inl hr
  | call r' m =>
    simp only [step] at hs
    split at hs <;> try cases hs
    obtain ⟨-, hs⟩ := Option.ite_none_right_eq_some.mp hs
    cases hs
    exact .inl ((update_returned hr).resolve_right fun h => nomatch h.2)
  | first r' =>
    simp only [step] at hs
    split at hs <;> try cases hs
    split at hs <;> cases hs
    · exact .inl hr
    · exact .inl ((update_returned hr).resolve_right fun h => nomatch h.2)
  | copy r' i =>
    simp only [step] at hs
    split at hs <;> try cases hs
    obtain ⟨-, hs⟩ := Option.ite_none_right_eq_some.mp hs
    cases hs
    exact .inl ((update_returned hr).resolve_right fun h => nomatch h.2)
  | second r' =>
    simp only [step] at hs
    split at hs <;> try cases hs
    rename_i hr'
    obtain ⟨hall, hs⟩ := Option.ite_none_right_eq_some.mp hs
    cases hs
    refine (update_returned hr).imp_right ?_
    rintro ⟨rfl, hp⟩
    split at hp <;> cases hp
    rename_i heq
    subst heq
    exact ⟨_, hr', rfl, hall⟩
  | ret r' =>
    simp only [step] at hs
    split at hs <;> cases hs
    exact .inl ((update_returned hr).resolve_right fun h => nomatch h.2)

/-- **Readers see only whole states.** If fewer than `2 ^ 31` writes completed during the attempt
that a reader returned from, the words it returns are those of the value that the last completed
write had left at some moment of its call. -/
theorem load_whole [DecidableEq ι] (size : Nat) (data : Nat → W) (s : State ι W)
    (past : List (State ι W)) (h : History (step size) (init ι data) s past) (r : ι) (n d : Nat)
    (out : Nat → Option W) (hr : s.reader r = .returned n d out) (hd : d < 2 ^ 31) :
    Since (InCall r) (fun x => InCall r x ∧ ∀ i < n, out i = some (x.current i)) (s :: past) := by
  have hI : ∀ s past, History (step size) (init ι data) s past → Inv s :=
    fun s past h => h.invariant (init_inv data) fun _ _ _ => Inv.step
  refine h.since (C := fun s => s.reader r = .returned n d out) hI nofun ?_ hr
  intro s a s' hi hs hr
  refine .inr ⟨by rw [InCall, hr]; trivial, ?_⟩
  rcases returned_before hs hr with hr | ⟨since, hcopy, hwithin, hall⟩
  · exact .inr hr
  · refine .inl ⟨by rw [InCall, hcopy]; trivial, fun i hlt => ?_⟩
    exact hi.second hcopy rfl (hwithin ▸ hd) (hall i hlt)

/-- A read that overlaps a write is tried again and returns what the write left. -/
theorem load_whole_overlap : ∃ (s : State Unit Nat) (past : List (State Unit Nat)),
    replay (step 2) (init Unit fun _ => 0) []
      [.call () 2, .first (), .copy () 0, .beginLoad, .beginStore, .store 0 1, .store 1 1,
        .copy () 1, .endLoad, .endStore, .second (), .first (), .copy () 1, .copy () 0,
        .second ()] = some (s, past) ∧
    ∃ out, s.reader () = .returned 2 0 out ∧
      Since (InCall ()) (fun x => InCall () x ∧ ∀ i < 2, out i = some (x.current i))
        (s :: past) := by
  refine ⟨_, _, rfl, _, rfl, ?_⟩
  exact load_whole 2 (fun _ => 0) _ _ (History.start.replay
    [.call () 2, .first (), .copy () 0, .beginLoad, .beginStore, .store 0 1, .store 1 1,
      .copy () 1, .endLoad, .endStore, .second (), .first (), .copy () 1, .copy () 0,
      .second ()] rfl) () 2 0 _ rfl (by decide)

end Stok.SeqLock
