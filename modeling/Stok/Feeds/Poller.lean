import Stok.Core.FlatMapRefine
import Stok.Core.Word

/-!
# Responses to feed polls (`FeedPoller::on_response` of `feeds/poller.cpp`)

`Feed` is the state that the lanes of one feed share: the stored validators, the set
of item ids already handled, and whether the first document has been read. A response
is handled as a whole, whichever lane it came on, so a run is a list of responses.

The development is over any document type and any two passes of the parser: `scan`
gives the items of a document with their ids (`scan_feed`) and `fill` the event of an
item, if it has usable content (`fill_event`). Whether the engine ring has a free slot
at the `k`-th claim of a response is part of that response (`Reply.ring`): the engine
drains the ring at the same time.
-/

namespace Stok.Poller

structure FeedStats where
  ok : Nat := 0
  notModified : Nat := 0
  httpErrors : Nat := 0
  newItems : Nat := 0
  dropped : Nat := 0
  deriving Repr, DecidableEq

structure Feed where
  emitBacklog : Bool
  etag : Bytes := []
  lastModified : Bytes := []
  seen : Table Unit := .new 4096 defaultLoad FlatMap64.defaultLoad_bounds
  primed : Bool := false
  stats : FeedStats := {}
  backoffUntil : Nat := 0
  backoffStreak : Nat := 0

/-- A response, with the document the server sent and what happened around it. -/
structure Reply (Doc : Type) where
  status : Nat
  etag : Bytes := []
  lastModified : Bytes := []
  doc : Doc
  payloadError : Bool := false
  ring : Nat → Bool := fun _ => true
  now : Nat := 0
  recvWall : Nat := 0
  sentWall : Nat := 0

/-- An event published to the engine ring, with the fields the poller stamps. -/
structure Published (E : Type) where
  event : E
  idHash : UInt64
  recvNs : Nat
  sentNs : Nat

section

variable {Doc Item E : Type} (scan : Doc → List (Item × UInt64)) (fill : Item → Option E)

/-- The state of the scan of a document: the feed, the claims made and the events published. -/
structure Scan (E : Type) where
  feed : Feed
  claims : Nat := 0
  out : List (Published E) := []

/-- The callback of `scan_feed`. -/
def onItem (r : Reply Doc) (st : Scan E) (it : Item × UInt64) : Scan E :=
  let f := st.feed
  let (item, id) := it
  if f.seen.contains id then st
  else if !f.primed && !f.emitBacklog then
    { st with feed := { f with seen := (f.seen.tryEmplace id).1 } }
  else if !r.ring st.claims then
    -- engine ring full: not marked seen
    { st with
      claims := st.claims + 1
      feed := { f with stats.dropped := f.stats.dropped + 1 } }
  else match fill item with
    | none => { st with
        claims := st.claims + 1
        feed := { f with seen := (f.seen.tryEmplace id).1 } }
    | some e =>
      { claims := st.claims + 1
        out := st.out ++ [⟨e, id, r.recvWall, r.sentWall⟩]
        feed := { f with seen := (f.seen.tryEmplace id).1 } }

/-- The part of `on_response` after the status is known to be 200. -/
def onOk (f : Feed) (r : Reply Doc) : Feed × List (Published E) :=
  let f := { f with
    backoffStreak := 0
    stats.ok := f.stats.ok + 1
    etag := if r.etag.isEmpty then f.etag else r.etag
    lastModified := if r.lastModified.isEmpty then f.lastModified else r.lastModified }
  if r.payloadError then ({ f with stats.httpErrors := f.stats.httpErrors + 1 }, [])
  else
    let st := (scan r.doc).foldl (onItem fill r) { feed := f }
    ({ st.feed with primed := true, stats.newItems := st.feed.stats.newItems + st.out.length }, st.out)

/-- `(10ull << backoff_streak) * kNsPerSec`. -/
def backoffNs (streak : Nat) : Nat := (10 <<< UInt64.ofNat streak * 1000000000).toNat

def onResponse (f : Feed) (r : Reply Doc) : Feed × List (Published E) :=
  if r.status = 304 then ({ f with stats.notModified := f.stats.notModified + 1 }, [])
  else if r.status ≠ 200 then
    let f := { f with stats.httpErrors := f.stats.httpErrors + 1 }
    if r.status = 403 ∨ r.status = 429 ∨ r.status = 503 then
      let streak := min (f.backoffStreak + 1) 6
      ({ f with backoffStreak := streak, backoffUntil := add64 r.now (backoffNs streak) }, [])
    else (f, [])
  else onOk scan fill f r

/-- The validators sent with the next request. -/
def condition (f : Feed) : Bytes × Bytes := (f.etag, f.lastModified)

def run (f : Feed) (rs : List (Reply Doc)) : Feed :=
  rs.foldl (fun f r => (onResponse scan fill f r).1) f

/-! ## What the validators promise -/

/-- The validators of the next request are those of the document of `r`. -/
def Stored (f : Feed) (r : Reply Doc) : Prop :=
  (r.etag ≠ [] ∧ (condition f).1 = r.etag) ∨
    (r.lastModified ≠ [] ∧ (condition f).2 = r.lastModified)

instance (f : Feed) (r : Reply Doc) : Decidable (Stored f r) :=
  inferInstanceAs (Decidable ((_ ∧ _) ∨ (_ ∧ _)))

/-- Every item of a document is in the feed's set. -/
def AllSeen (f : Feed) (d : Doc) : Prop := ∀ it ∈ scan d, it.2 ∈ f.seen.map

/-- A server that still has the document of `r`: 304 when it has the stored validators. -/
def serve (f : Feed) (r : Reply Doc) : Reply Doc :=
  if Stored f r then { r with status := 304 } else r

/-- The ids of items that are not in the set yet. -/
def unseen (f : Feed) (l : List (Item × UInt64)) : Finset UInt64 :=
  (l.map Prod.snd).toFinset.filter fun id => f.seen.contains id = false

/-- The response keeps the promise of its validators: it has none; or no item has the reserved
id, a body that fails to decode holds nothing unseen, and the ring has a slot for every item it
is asked to take. -/
def Keeps (f : Feed) (r : Reply Doc) : Prop :=
  r.status = 200 → r.etag ≠ [] ∨ r.lastModified ≠ [] →
    (∀ it ∈ scan r.doc, it.2 ≠ kEmpty) ∧ (r.payloadError = true → unseen f (scan r.doc) = ∅) ∧
      (f.primed = true ∨ f.emitBacklog = true → ∀ k < (unseen f (scan r.doc)).card, r.ring k = true)

/-- Every response of a run keeps its promise in the state it meets. -/
def KeepsAll (f : Feed) : List (Reply Doc) → Prop
  | [] => True
  | r :: rs => Keeps scan f r ∧ KeepsAll (onResponse scan fill f r).1 rs

variable {scan fill}

theorem mem_unseen {f : Feed} {l : List (Item × UInt64)} {id : UInt64} :
    id ∈ unseen f l ↔ (∃ it ∈ l, it.2 = id) ∧ id ≠ kEmpty ∧ id ∉ f.seen.map := by
  rw [unseen, Finset.mem_filter, List.mem_toFinset, List.mem_map, Table.contains_eq_false]

/-! ## One item -/

/-- Adding an id to the set. -/
def Feed.mark (f : Feed) (id : UInt64) : Feed := { f with seen := (f.seen.tryEmplace id).1 }

theorem mem_mark {f : Feed} {id q : UInt64} (h : id ≠ kEmpty) :
    q ∈ (f.mark id).seen.map ↔ q ∈ f.seen.map ∨ q = id := by
  rw [Feed.mark, Table.mem_map_tryEmplace]
  simp [h]

/-- What the callback does to the set: the id is there already, it is added, or the claim failed. -/
theorem onItem_seen (fill : Item → Option E) (r : Reply Doc) (st : Scan E) (it : Item × UInt64) :
    let st' := onItem fill r st it
    (st'.feed.primed = st.feed.primed ∧ st'.feed.emitBacklog = st.feed.emitBacklog) ∧
    ((st.feed.seen.contains it.2 = true ∧ st' = st) ∨
      (st.feed.seen.contains it.2 = false ∧ st'.feed.seen = (st.feed.mark it.2).seen ∧
        (st.feed.primed = true ∨ st.feed.emitBacklog = true → st'.claims = st.claims + 1)) ∨
      (st.feed.seen.contains it.2 = false ∧ st'.feed.seen = st.feed.seen ∧
        (st.feed.primed = true ∨ st.feed.emitBacklog = true) ∧ r.ring st.claims = false)) := by
  unfold onItem
  dsimp only
  cases hc : st.feed.seen.contains it.2 with
  | true => simp
  | false =>
    rw [if_neg Bool.false_ne_true]
    cases hp : (!st.feed.primed && !st.feed.emitBacklog) with
    | true =>
      rw [if_pos rfl]
      refine ⟨⟨rfl, rfl⟩, .inr (.inl ⟨rfl, rfl, fun h => ?_⟩)⟩
      simp only [Bool.and_eq_true, Bool.not_eq_true'] at hp
      rcases h with h | h
      · rw [hp.1] at h; cases h
      · rw [hp.2] at h; cases h
    | false =>
      rw [if_neg Bool.false_ne_true]
      cases hr : r.ring st.claims with
      | false =>
        rw [if_pos (by simp)]
        refine ⟨⟨rfl, rfl⟩, .inr (.inr ⟨rfl, rfl, ?_, rfl⟩)⟩
        revert hp
        cases st.feed.primed <;> cases st.feed.emitBacklog <;> simp
      | true =>
        rw [if_neg (by simp)]
        cases fill it.1 with
        | none => exact ⟨⟨rfl, rfl⟩, .inr (.inl ⟨rfl, rfl, fun _ => rfl⟩)⟩
        | some e => exact ⟨⟨rfl, rfl⟩, .inr (.inl ⟨rfl, rfl, fun _ => rfl⟩)⟩

theorem onItem_mono (r : Reply Doc) (st : Scan E) (it : Item × UInt64) {id : UInt64}
    (h : id ∈ st.feed.seen.map) : id ∈ (onItem fill r st it).feed.seen.map := by
  obtain ⟨-, ⟨-, e⟩ | ⟨-, e, -⟩ | ⟨-, e, -⟩⟩ := onItem_seen fill r st it
  · rw [e]; exact h
  · rw [e, Feed.mark, Table.mem_map_tryEmplace]; exact .inl h
  · rw [e]; exact h

theorem scan_mono (r : Reply Doc) {id : UInt64} : ∀ (l : List (Item × UInt64)) (st : Scan E),
    id ∈ st.feed.seen.map → id ∈ (l.foldl (onItem fill r) st).feed.seen.map
  | [], _, h => h
  | it :: l, _, h => scan_mono r l _ (onItem_mono r _ it h)

/-- An id in the set adds nothing unseen. -/
theorem unseen_cons_of_mem {f : Feed} {it : Item × UInt64} {l : List (Item × UInt64)}
    (h : it.2 ∈ f.seen.map) : unseen f (it :: l) = unseen f l := by
  ext id
  rw [mem_unseen, mem_unseen]
  refine and_congr_left fun ⟨_, hnot⟩ => ⟨?_, fun ⟨y, hy, hyi⟩ => ⟨y, List.mem_cons_of_mem _ hy, hyi⟩⟩
  rintro ⟨y, hy, rfl⟩
  rcases List.mem_cons.1 hy with rfl | hy
  · exact absurd h hnot
  · exact ⟨y, hy, rfl⟩

/-- Once an unseen id is in the set, one unseen id less is left. -/
theorem card_unseen_cons {f f' : Feed} {it : Item × UInt64} {l : List (Item × UInt64)}
    (hid : it.2 ≠ kEmpty) (hnot : it.2 ∉ f.seen.map)
    (hmem : ∀ q, q ∈ f'.seen.map ↔ q ∈ f.seen.map ∨ q = it.2) :
    (unseen f (it :: l)).card = (unseen f' l).card + 1 := by
  have hun : unseen f (it :: l) = insert it.2 (unseen f' l) := by
    ext id
    rw [Finset.mem_insert, mem_unseen, mem_unseen, hmem]
    constructor
    · rintro ⟨⟨y, hy, rfl⟩, hk, hn⟩
      rcases List.mem_cons.1 hy with rfl | hy
      · exact .inl rfl
      · by_cases heq : y.2 = it.2
        · exact .inl heq
        · exact .inr ⟨⟨y, hy, rfl⟩, hk, by rintro (h | h) <;> [exact hn h; exact heq h]⟩
    · rintro (rfl | ⟨⟨y, hy, rfl⟩, hk, hn⟩)
      · exact ⟨⟨it, List.mem_cons_self, rfl⟩, hid, hnot⟩
      · exact ⟨⟨y, List.mem_cons_of_mem _ hy, rfl⟩, hk, fun h => hn (.inl h)⟩
  rw [hun, Finset.card_insert_of_notMem]
  rw [mem_unseen, hmem]
  exact fun h => h.2.2 (.inr rfl)

/-- The scan of a document whose claims all succeed leaves every id in the set. -/
theorem scan_all (r : Reply Doc) : ∀ (l : List (Item × UInt64)) (st : Scan E),
    (∀ it ∈ l, it.2 ≠ kEmpty) →
    (st.feed.primed = true ∨ st.feed.emitBacklog = true →
      ∀ k < (unseen st.feed l).card, r.ring (st.claims + k) = true) →
    ∀ it ∈ l, it.2 ∈ (l.foldl (onItem fill r) st).feed.seen.map
  | [], _, _, _, _, h => by cases h
  | it :: l, st, hne, hring, x, hx => by
    have hid := hne it List.mem_cons_self
    have hl : ∀ y ∈ l, y.2 ≠ kEmpty := fun y hy => hne y (List.mem_cons_of_mem _ hy)
    obtain ⟨⟨hp, hb⟩, hcase⟩ := onItem_seen fill r st it
    rw [List.foldl_cons]
    rcases hcase with ⟨hc, e⟩ | ⟨hc, e, hclaims⟩ | ⟨hc, -, hact, hfull⟩
    · -- already in the set: the rest has the same unseen ids
      have hin : it.2 ∈ st.feed.seen.map := by
        by_contra hnot
        rw [Table.contains_eq_false.2 ⟨hid, hnot⟩] at hc
        cases hc
      rw [e]
      rcases List.mem_cons.1 hx with rfl | hx
      · exact scan_mono r l _ hin
      · exact scan_all r l _ hl (by rw [← unseen_cons_of_mem hin]; exact hring) x hx
    · -- added: one unseen id and one claim less
      have hnot := (Table.contains_eq_false.1 hc).2
      have hmem : ∀ q, q ∈ (onItem fill r st it).feed.seen.map ↔ q ∈ st.feed.seen.map ∨ q = it.2 :=
        fun q => by rw [e]; exact mem_mark hid
      have hcard := card_unseen_cons (l := l) hid hnot hmem
      rcases List.mem_cons.1 hx with rfl | hx
      · exact scan_mono r l _ ((hmem _).2 (.inr rfl))
      · refine scan_all r l _ hl (fun hact k hk => ?_) x hx
        rw [hp, hb] at hact
        rw [hclaims hact, Nat.add_assoc, Nat.add_comm 1]
        exact hring hact (k + 1) (by omega)
    · -- a failed claim contradicts the promise
      have h0 : 0 < (unseen st.feed (it :: l)).card := by
        refine Finset.card_pos.2 ⟨it.2, ?_⟩
        rw [mem_unseen]
        exact ⟨⟨it, List.mem_cons_self, rfl⟩, Table.contains_eq_false.1 hc⟩
      have := hring hact 0 h0
      rw [Nat.add_zero, hfull] at this
      cases this

/-! ## One response -/

theorem onResponse_mono (f : Feed) (r : Reply Doc) {id : UInt64} (h : id ∈ f.seen.map) :
    id ∈ (onResponse scan fill f r).1.seen.map := by
  unfold onResponse
  split
  · exact h
  · split
    · dsimp only
      split <;> exact h
    · unfold onOk
      dsimp only
      split
      · exact h
      · exact scan_mono r (scan r.doc) { feed := _ } h

theorem onResponse_ok {f : Feed} {r : Reply Doc} (h : r.status = 200) :
    onResponse scan fill f r = onOk scan fill f r := by
  simp [onResponse, h]

/-- A response that keeps its promise leaves all its items in the set. -/
theorem Keeps.allSeen {f : Feed} {r : Reply Doc} (h : Keeps scan f r) (h200 : r.status = 200)
    (hv : r.etag ≠ [] ∨ r.lastModified ≠ []) : AllSeen scan (onResponse scan fill f r).1 r.doc := by
  obtain ⟨hne, herr, hring⟩ := h h200 hv
  intro it hit
  cases hp : r.payloadError with
  | true =>
    have hin : it.2 ∈ f.seen.map := by
      by_contra hnot
      have hmem : it.2 ∈ unseen f (scan r.doc) := mem_unseen.2 ⟨⟨it, hit, rfl⟩, hne it hit, hnot⟩
      rw [herr hp] at hmem
      cases hmem
    exact onResponse_mono f r hin
  | false =>
    rw [onResponse_ok h200]
    unfold onOk
    rw [hp, if_neg Bool.false_ne_true]
    refine scan_all r (scan r.doc) { feed := _ } hne (fun hact k hk => ?_) it hit
    rw [Nat.zero_add]
    exact hring hact k hk

theorem run_mono {id : UInt64} : ∀ (rs : List (Reply Doc)) {f : Feed}, id ∈ f.seen.map →
    id ∈ (run scan fill f rs).seen.map
  | [], _, h => h
  | r :: rs, f, h => run_mono rs (onResponse_mono f r h)

theorem run_allSeen : ∀ (rs : List (Reply Doc)) {f : Feed}, KeepsAll scan fill f rs →
    ∀ r ∈ rs, r.status = 200 → r.etag ≠ [] ∨ r.lastModified ≠ [] →
      AllSeen scan (run scan fill f rs) r.doc
  | [], _, _, _, hr, _, _ => by cases hr
  | r0 :: rs, f, ⟨h0, hrs⟩, r, hr, h200, hv => by
    rcases List.mem_cons.1 hr with rfl | hr
    · exact fun it hit => run_mono rs (h0.allSeen h200 hv it hit)
    · exact run_allSeen rs hrs r hr h200 hv

theorem serve_status {f : Feed} {r : Reply Doc} (h : Stored f r) : (serve f r).status = 304 := by
  rw [serve, if_pos h]

/-- In every state that a run of promise-keeping responses reaches, the items of the document
whose validators are stored are all in the set; so an item that is not is offered again by a
server that answers 304 only to the stored validators. -/
theorem stored_allSeen (emitBacklog : Bool) (rs : List (Reply Doc))
    (h : KeepsAll scan fill { emitBacklog := emitBacklog } rs) :
    let f := run scan fill { emitBacklog := emitBacklog } rs
    (∀ r ∈ rs, r.status = 200 → Stored f r → AllSeen scan f r.doc) ∧
      (∀ r ∈ rs, r.status = 200 → ∀ it ∈ scan r.doc, it.2 ∉ f.seen.map → serve f r = r) := by
  intro f
  have hall : ∀ r ∈ rs, r.status = 200 → Stored f r → AllSeen scan f r.doc := by
    intro r hr h200 hs
    refine run_allSeen rs h r hr h200 ?_
    rcases hs with ⟨he, -⟩ | ⟨hl, -⟩
    · exact .inl he
    · exact .inr hl
  refine ⟨hall, fun r hr h200 it hit hnot => ?_⟩
  unfold serve
  rw [if_neg]
  exact fun hs => hnot (hall r hr h200 hs it hit)

end

/-! ## A full ring -/

/-- Documents that are lists of ids, every item with content. -/
def listScan (d : List UInt64) : List (Unit × UInt64) := d.map fun id => ((), id)

/-- A feed is primed by an empty document; the next one brings item 1, while the ring is full. -/
def fullRing : List (Reply (List UInt64)) :=
  [{ status := 200, etag := [1], doc := [] },
   { status := 200, etag := [2], doc := [1], ring := fun _ => false }]

/-- The item is not in the set, yet the next poll sends the validator of its document. -/
theorem fullRing_lost :
    let f := run listScan (fun _ => some ()) { emitBacklog := false } fullRing
    ∃ r ∈ fullRing, r.status = 200 ∧ Stored f r ∧ (serve f r).status = 304 ∧
      ¬ AllSeen listScan f r.doc := by
  intro f
  have hs : Stored f { status := 200, etag := [2], doc := [1], ring := fun _ => false } := by
    decide +kernel
  refine ⟨{ status := 200, etag := [2], doc := [1], ring := fun _ => false },
    List.mem_cons_of_mem _ List.mem_cons_self, rfl, hs, serve_status hs, fun h => ?_⟩
  have hc : f.seen.contains 1 = false := by decide +kernel
  exact (Table.contains_eq_false.1 hc).2 (h ((), 1) List.mem_cons_self)

/-- The same documents with room in the ring. -/
theorem stored_allSeen_room :
    let rs : List (Reply (List UInt64)) :=
      [{ status := 200, etag := [1], doc := [] }, { status := 200, etag := [2], doc := [1] }]
    let f := run listScan (fun _ => some ()) { emitBacklog := false } rs
    ∀ r ∈ rs, r.status = 200 → Stored f r → AllSeen listScan f r.doc := by
  intro rs f
  refine (stored_allSeen false rs ⟨?_, ?_, trivial⟩).1
  · exact fun _ _ => ⟨fun it h => (List.not_mem_nil h).elim, fun _ => rfl, fun _ k hk => rfl⟩
  · refine fun _ _ => ⟨fun it h => ?_, fun h => (Bool.false_ne_true h).elim, fun _ k hk => rfl⟩
    rw [List.mem_singleton.1 h]
    decide

end Stok.Poller
