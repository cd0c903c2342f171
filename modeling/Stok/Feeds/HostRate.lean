import Stok.Core.Dbl
import Stok.Lib.TokenBucket

/-!
# The rate limit of a host (`FeedPoller::Host` of `feeds/poller.cpp`)

Every request to a host takes a token, whichever lane sends it. In exact arithmetic a host is a token
bucket (`Host.bucket`) that is full before its first call.
-/

namespace Stok.Poller

open Lib

/-- `FeedPoller::Host`, without its name and its address. -/
structure Host (F : Type) where
  maxRps : F
  tokens : F
  burst : F
  /-- Zero before the first call. -/
  lastRefill : UInt64

/-- A call of `take` or of `wait_ns`. -/
structure Call where
  now : UInt64
  take : Bool

namespace Host

section

variable {F : Type} [Dbl F]

/-- As `FeedPoller::init` sets it up. -/
def init (maxRps : F) : Host F :=
  let burst := Dbl.max (Dbl.ofRat 1) (Dbl.min maxRps (Dbl.ofRat 4))
  { maxRps := maxRps, tokens := burst, burst := burst, lastRefill := 0 }

def refill (h : Host F) (now : UInt64) : Host F :=
  let last := if h.lastRefill = 0 then now else h.lastRefill
  let dt := Dbl.ofRat (now - last).toNat / Dbl.ofRat 1000000000
  { h with lastRefill := now, tokens := Dbl.min h.burst (h.tokens + dt * h.maxRps) }

def take (h : Host F) (now : UInt64) : Bool × Host F :=
  let h := h.refill now
  if Dbl.le (Dbl.ofRat 1) h.tokens then (true, { h with tokens := h.tokens - Dbl.ofRat 1 })
  else (false, h)

/-- The nanoseconds until there is a token. -/
def waitNs (h : Host F) (now : UInt64) : Nat × Host F :=
  let h := h.refill now
  if Dbl.le (Dbl.ofRat 1) h.tokens then (0, h)
  else ((Dbl.trunc ((Dbl.ofRat 1 - h.tokens) / h.maxRps * Dbl.ofRat 1000000000)).toNat + 1000, h)

def call (h : Host F) (c : Call) : Host F := if c.take then (h.take c.now).2 else (h.waitNs c.now).2

def run (h : Host F) (calls : List Call) : Host F := calls.foldl call h

/-- The times of the calls of `take` that get a token. -/
def taken (h : Host F) : List Call → List Nat
  | [] => []
  | c :: calls =>
    if c.take && (h.take c.now).1 then c.now.toNat :: taken (h.call c) calls else taken (h.call c) calls

end

/-! ## A host is a token bucket -/

/-- Seconds. -/
def sec (t : Nat) : ℚ := t / 1000000000

def bucket (h : Host ℚ) : TokenBucket ℚ :=
  { tokens := h.tokens, burst := h.burst, rate := h.maxRps, last := sec h.lastRefill.toNat }

def event (c : Call) : TokenBucket.Event ℚ := { time := sec c.now.toNat, request := c.take }

/-- Before its first call a host is full; it has room for a token, and a rate. -/
structure Ready (h : Host ℚ) : Prop where
  full : h.lastRefill = 0 → h.tokens = h.burst
  sound : h.bucket.Sound
  burst : 1 ≤ h.burst
  rate : 0 < h.maxRps

theorem sec_le {s t : Nat} : sec s ≤ sec t ↔ s ≤ t := by
  unfold sec
  rw [div_le_div_iff_of_pos_right (by norm_num)]
  exact Nat.cast_le

variable {h : Host ℚ} {now : UInt64}

theorem bucket_refill (hr : h.Ready) (hnow : h.lastRefill ≤ now) :
    (h.refill now).bucket = h.bucket.refill (sec now.toNat) := by
  have hmin : ∀ a b : ℚ, Dbl.min a b = min a b := by
    intro a b
    simp only [Dbl.min, Dbl.lt, decide_eq_true_eq, min_def]
    split <;> split <;> linarith
  have htokens : (h.refill now).tokens = (h.bucket.refill (sec now.toNat)).tokens := by
    simp only [refill, hmin, TokenBucket.refill, bucket]
    by_cases hzero : h.lastRefill = 0
    · -- the sentinel
      have hfull := hr.full hzero
      have hflow : 0 ≤ (sec now.toNat - sec h.lastRefill.toNat) * h.maxRps :=
        mul_nonneg (sub_nonneg.mpr (sec_le.mpr (UInt64.le_iff_toNat_le.mp hnow))) hr.sound.rate
      have hdt : Dbl.ofRat (F := ℚ) ((now - now).toNat : ℚ) = 0 := by
        rw [UInt64.sub_self]
        rfl
      rw [if_pos hzero, hfull, hdt, zero_div, zero_mul, add_zero, min_self, min_eq_left (by linarith)]
    · rw [if_neg hzero, UInt64.toNat_sub_of_le _ _ hnow, Nat.cast_sub (UInt64.le_iff_toNat_le.mp hnow)]
      simp only [Dbl.ofRat, sec, sub_div]
  have heq : (h.refill now).bucket = { h.bucket.refill (sec now.toNat) with tokens := (h.refill now).tokens } := rfl
  rw [heq, htokens]

theorem le_one {x : ℚ} : Dbl.le (Dbl.ofRat 1) x = decide (1 ≤ x) := rfl

theorem bucket_take (hr : h.Ready) (hnow : h.lastRefill ≤ now) :
    (h.take now).1 = (h.bucket.take (sec now.toNat)).1 ∧
      (h.take now).2.bucket = (h.bucket.take (sec now.toNat)).2 := by
  have hrefill := bucket_refill hr hnow
  have htokens : (h.refill now).tokens = (h.bucket.refill (sec now.toNat)).tokens := by rw [← hrefill]; rfl
  simp only [take, le_one, TokenBucket.take, decide_eq_true_eq, ← htokens]
  split
  · exact ⟨rfl, by rw [← hrefill]; rfl⟩
  · exact ⟨rfl, hrefill⟩

theorem waitNs_snd (h : Host ℚ) (now : UInt64) : (h.waitNs now).2 = h.refill now := by
  unfold waitNs
  dsimp only
  split <;> rfl

/-- A call is an event of the bucket. -/
theorem bucket_call (hr : h.Ready) {c : Call} (hnow : h.lastRefill ≤ c.now) :
    (h.call c).bucket = h.bucket.step (event c) ∧ (c.take && (h.take c.now).1) = h.bucket.admits (event c) := by
  obtain ⟨h1, h2⟩ := bucket_take hr hnow
  refine ⟨?_, by rw [h1]; rfl⟩
  unfold call TokenBucket.step event
  split
  · exact h2
  · rw [waitNs_snd]
    exact bucket_refill hr hnow

theorem call_lastRefill (h : Host ℚ) (c : Call) : (h.call c).lastRefill = c.now := by
  unfold call
  split
  · unfold take
    dsimp only
    split <;> rfl
  · rw [waitNs_snd]
    rfl

theorem Ready.call (hr : h.Ready) {c : Call} (hpos : 0 < c.now) (hnow : h.lastRefill ≤ c.now) : (h.call c).Ready := by
  obtain ⟨hstep, -⟩ := bucket_call hr hnow
  have hburst : (h.call c).burst = h.burst := (congrArg TokenBucket.burst hstep).trans (TokenBucket.step_burst ..)
  have hrate : (h.call c).maxRps = h.maxRps := (congrArg TokenBucket.rate hstep).trans (TokenBucket.step_rate ..)
  refine ⟨fun hzero => ?_, ?_, hburst ▸ hr.burst, hrate ▸ hr.rate⟩
  · rw [call_lastRefill] at hzero
    exact absurd hpos (hzero ▸ UInt64.lt_irrefl _)
  · rw [hstep]
    exact hr.sound.step (sec_le.mpr (UInt64.le_iff_toNat_le.mp hnow))

/-- The calls come in order and at positive times. -/
def Timed (last : UInt64) : List Call → Prop
  | [] => True
  | c :: calls => 0 < c.now ∧ last ≤ c.now ∧ Timed c.now calls

theorem timed_of_sorted {calls : List Call} (hpos : ∀ c ∈ calls, 0 < c.now)
    (hsorted : calls.Pairwise fun c c' => c.now ≤ c'.now) {last : UInt64} (hlast : ∀ c ∈ calls, last ≤ c.now) :
    Timed last calls := by
  induction calls generalizing last with
  | nil => trivial
  | cons c calls ih =>
    obtain ⟨hc, hrest⟩ := List.pairwise_cons.mp hsorted
    exact ⟨hpos c (List.mem_cons_self ..), hlast c (List.mem_cons_self ..),
      ih (fun c' hc' => hpos c' (List.mem_cons_of_mem _ hc')) hrest hc⟩

theorem Timed.ordered {calls : List Call} {last : UInt64} (ht : Timed last calls) :
    TokenBucket.Ordered (sec last.toNat) (calls.map event) := by
  induction calls generalizing last with
  | nil => trivial
  | cons c calls ih => exact ⟨sec_le.mpr (UInt64.le_iff_toNat_le.mp ht.2.1), ih ht.2.2⟩

theorem bucket_run {calls : List Call} (hr : h.Ready) (ht : Timed h.lastRefill calls) :
    (h.run calls).bucket = h.bucket.after (calls.map event) ∧
      (h.taken calls).map sec = h.bucket.admitted (calls.map event) ∧ (h.run calls).Ready := by
  induction calls generalizing h with
  | nil => exact ⟨rfl, rfl, hr⟩
  | cons c calls ih =>
    obtain ⟨hpos, hle, hrest⟩ := ht
    obtain ⟨hstep, hadmits⟩ := bucket_call hr hle
    obtain ⟨h1, h2, h3⟩ := ih (hr.call hpos hle) (by rwa [call_lastRefill])
    refine ⟨?_, ?_, h3⟩
    · rw [hstep] at h1
      exact h1
    · rw [hstep] at h2
      rw [taken, hadmits, List.map_cons, TokenBucket.admitted]
      split
      · rw [List.map_cons, h2]
        rfl
      · exact h2

theorem ready_init {rps : ℚ} (hr : 0 < rps) : (init rps).Ready := by
  have hburst : (1 : ℚ) ≤ (init rps).burst := by
    have hmax : ∀ x : ℚ, (1 : ℚ) ≤ Dbl.max (Dbl.ofRat 1) x := by
      intro x
      unfold Dbl.max
      split
      · rename_i hlt
        exact (of_decide_eq_true hlt : (1 : ℚ) < x).le
      · exact le_rfl
    exact hmax _
  have hzero : (0 : ℚ) ≤ (init rps).burst := zero_le_one.trans hburst
  exact ⟨fun _ => rfl, ⟨⟨hzero, le_rfl⟩, hzero, hr.le⟩, hburst, hr⟩

/-! ## Runs -/

theorem run_lastRefill_le {calls : List Call} {t : UInt64} (hh : h.lastRefill ≤ t) (hl : ∀ c ∈ calls, c.now ≤ t) :
    (h.run calls).lastRefill ≤ t := by
  induction calls generalizing h with
  | nil => exact hh
  | cons c calls ih =>
    refine ih (h := h.call c) ?_ fun c' hc' => hl c' (List.mem_cons_of_mem _ hc')
    rw [call_lastRefill]
    exact hl c (List.mem_cons_self ..)

/-- What `wait_ns` returns is long enough for the token to flow in. -/
theorem waitNs_spec (hr : h.Ready) (hw : 0 < (h.waitNs now).1) :
    1 ≤ (h.refill now).tokens + ((h.waitNs now).1 : ℚ) / 1000000000 * h.maxRps := by
  have hrate := hr.rate
  have hmax : (h.refill now).maxRps = h.maxRps := rfl
  unfold waitNs at hw ⊢
  dsimp only at hw ⊢
  generalize h.refill now = h' at hw hmax ⊢
  split at hw
  · exact absurd hw (lt_irrefl 0)
  · rename_i hone
    rw [if_neg hone]
    have hlt : h'.tokens < 1 := lt_of_not_ge (by simpa [le_one] using hone)
    obtain ⟨x, hx⟩ : ∃ x : ℚ, x = (1 - h'.tokens) / h.maxRps * 1000000000 := ⟨_, rfl⟩
    have hx0 : 0 ≤ x := by
      rw [hx]
      exact mul_nonneg (div_nonneg (sub_nonneg.mpr hlt.le) hrate.le) (by norm_num)
    have hfloor : ((Dbl.trunc x).toNat : ℚ) = (⌊x⌋ : ℚ) := by
      have htrunc : Dbl.trunc x = ⌊x⌋ := if_pos hx0
      rw [htrunc]
      exact_mod_cast Int.toNat_of_nonneg (Int.floor_nonneg.mpr hx0)
    have hwait : x ≤ (((Dbl.trunc x).toNat + 1000 : Nat) : ℚ) := by
      have := (Int.lt_floor_add_one x).le
      push_cast
      linarith
    have hflow : 1 - h'.tokens = x / 1000000000 * h.maxRps := by
      rw [hx]
      field_simp
    have hmono := mul_le_mul_of_nonneg_right (div_le_div_of_nonneg_right hwait (by norm_num : (0 : ℚ) ≤ 1000000000)) hrate.le
    rw [hmax, show (Dbl.ofRat 1 - h'.tokens) / h.maxRps * Dbl.ofRat 1000000000 = x from hx.symm]
    linarith

/-- After the time that `wait_ns` says, there is a token, unless one was taken. -/
theorem take_after_wait (hr : h.Ready) (hpos : 0 < now) (hnow : h.lastRefill ≤ now) (hw : 0 < (h.waitNs now).1)
    {mid : List Call} {t : UInt64} (hmid : Timed now mid) (hnone : (h.waitNs now).2.taken mid = [])
    (hlast : ∀ c ∈ mid, c.now ≤ t) (ht : now.toNat + (h.waitNs now).1 ≤ t.toNat) :
    (((h.waitNs now).2.run mid).take t).1 = true := by
  have hcall : h.call ⟨now, false⟩ = h.refill now := waitNs_snd h now
  have hready : (h.refill now).Ready := hcall ▸ hr.call (c := ⟨now, false⟩) hpos hnow
  have hspec := waitNs_spec hr hw
  have hlen : now.toNat ≤ t.toNat := by omega
  have hle : now ≤ t := UInt64.le_iff_toNat_le.mpr hlen
  rw [waitNs_snd] at hnone ⊢
  obtain ⟨hrun, htaken, hready'⟩ := bucket_run hready hmid
  rw [hnone] at htaken
  -- the bucket at `t`, whatever looks there were
  have hfill := TokenBucket.after_refill hready.sound hmid.ordered htaken.symm (sec_le.mpr hlen) fun e he => by
    obtain ⟨c, hc, rfl⟩ := List.mem_map.mp he
    exact sec_le.mpr (UInt64.le_iff_toNat_le.mp (hlast c hc))
  have htake := (bucket_take hready' (run_lastRefill_le (h := h.refill now) hle hlast)).1
  rw [htake, hrun, TokenBucket.take, hfill, if_pos]
  refine le_min hready.burst ?_
  have hwait : ((h.waitNs now).1 : ℚ) / 1000000000 ≤ sec t.toNat - sec now.toNat := by
    unfold sec
    rw [← sub_div]
    have : ((now.toNat : ℚ) + (h.waitNs now).1) ≤ t.toNat := by exact_mod_cast ht
    gcongr
    linarith
  have hflow := mul_le_mul_of_nonneg_right hwait hr.rate.le
  exact hspec.trans (add_le_add_right hflow _)

/-- The limit of a host: its tokens stay within the burst, no window of time has more requests than the burst and the
rate allow, and `wait_ns` says when the next one goes through. -/
theorem host_rate_limit {rps : ℚ} (hrps : 0 < rps) {calls : List Call} (hpos : ∀ c ∈ calls, 0 < c.now)
    (hsorted : calls.Pairwise fun c c' => c.now ≤ c'.now) :
    (∀ l, l <+: calls → 0 ≤ ((init rps).run l).tokens ∧ ((init rps).run l).tokens ≤ (init rps).burst) ∧
    (∀ a b : Nat, a ≤ b → ((((init rps).taken calls).filter fun t => a ≤ t ∧ t ≤ b).length : ℚ) ≤
      (init rps).burst + rps * (((b : ℚ) - a) / 1000000000)) ∧
    (∀ (pre mid : List Call) (now t : UInt64), pre ++ ⟨now, false⟩ :: (mid ++ [⟨t, true⟩]) <+: calls →
      let h := (init rps).run pre
      0 < (h.waitNs now).1 → (h.waitNs now).2.taken mid = [] → now.toNat + (h.waitNs now).1 ≤ t.toNat →
      (((h.waitNs now).2.run mid).take t).1 = true) := by
  have hready := ready_init hrps
  have htimed : ∀ {l : List Call}, l <+: calls → Timed (init rps).lastRefill l := fun hl =>
    timed_of_sorted (fun c hc => hpos c (hl.subset hc)) (hsorted.sublist hl.sublist) fun _ _ => UInt64.zero_le
  refine ⟨fun l hl => ?_, fun a b hab => ?_, ?_⟩
  · obtain ⟨hrun, -, hready'⟩ := bucket_run hready (htimed hl)
    have hburst : ((init rps).run l).burst = (init rps).burst :=
      (congrArg TokenBucket.burst hrun).trans (TokenBucket.after_burst ..)
    exact hburst ▸ hready'.sound.tokens
  · obtain ⟨-, htaken, -⟩ := bucket_run hready (htimed (List.prefix_refl _))
    have hwindow := TokenBucket.admitted_window_le hready.sound (htimed (List.prefix_refl _)).ordered (sec_le.mpr hab)
    rw [← htaken, List.filter_map, List.length_map] at hwindow
    have hfilter : ((init rps).taken calls).filter ((fun t => decide (sec a ≤ t ∧ t ≤ sec b)) ∘ sec) =
        ((init rps).taken calls).filter fun t => a ≤ t ∧ t ≤ b := by
      refine List.filter_congr fun t _ => ?_
      simp only [Function.comp, sec_le]
    have hrate : (sec b - sec a) * rps = rps * (((b : ℚ) - a) / 1000000000) := by
      unfold sec
      ring
    rw [hfilter] at hwindow
    rw [← hrate]
    exact hwindow
  · intro pre mid now t hl h hw hnone ht
    have hsub := hsorted.sublist hl.sublist
    obtain ⟨-, hwait, hpre⟩ := List.pairwise_append.mp hsub
    obtain ⟨hnow, hmid⟩ := List.pairwise_cons.mp hwait
    obtain ⟨hsortedMid, -, hlast⟩ := List.pairwise_append.mp hmid
    have hmem : ∀ c ∈ mid, c ∈ calls := fun c hc => hl.subset (by simp [hc])
    have hprefix : pre <+: calls := (List.prefix_append _ _).trans hl
    have hposNow : 0 < now := hpos ⟨now, false⟩ (hl.subset (by simp))
    obtain ⟨-, -, hready'⟩ := bucket_run hready (htimed hprefix)
    have hle : h.lastRefill ≤ now := run_lastRefill_le UInt64.zero_le fun c hc =>
      hpre c hc ⟨now, false⟩ (List.mem_cons_self ..)
    have htimedMid : Timed now mid := timed_of_sorted (fun c hc => hpos c (hmem c hc)) hsortedMid fun c hc =>
      hnow c (List.mem_append_left _ hc)
    exact take_after_wait hready' hposNow hle hw htimedMid hnone (fun c hc => hlast c hc _ (List.mem_singleton.mpr rfl)) ht

/-- Two requests at a rate of one a second: the second waits for the first one's token. -/
theorem host_rate_limit_two :
    ((((init (1 : ℚ)).taken [⟨5, true⟩, ⟨5, false⟩, ⟨2000000005, true⟩]).filter fun t => 0 ≤ t ∧ t ≤ 5).length : ℚ) ≤
        (init (1 : ℚ)).burst + 1 * ((((5 : Nat) : ℚ) - (0 : Nat)) / 1000000000) ∧
      ((((init (1 : ℚ)).run [⟨5, true⟩]).waitNs 5).2.take 2000000005).1 = true := by
  have hlimit := @host_rate_limit 1 (by norm_num) [⟨5, true⟩, ⟨5, false⟩, ⟨2000000005, true⟩]
    (by decide) (by decide)
  have hwait : (((init (1 : ℚ)).run [⟨5, true⟩]).waitNs 5).1 = 1000001000 := by decide +kernel
  obtain ⟨-, hwindow, hafter⟩ := hlimit
  refine ⟨hwindow 0 5 (by decide), hafter [⟨5, true⟩] [] 5 2000000005 (List.prefix_refl _) ?_ rfl ?_⟩
  · rw [hwait]
    decide
  · rw [hwait]
    decide

end Host

end Stok.Poller
