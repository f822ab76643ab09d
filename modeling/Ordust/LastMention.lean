import Ordust.MarketBook
import Ordust.Reference

/-!
# What a history of updates leaves in the market book

Of the entries that name a price since the last snapshot, the last one counts. `depth` lists what
is left, best price first.
-/

open OrderDual

namespace Ordust

/-! ## Histories -/

namespace MarketBook

def apply (b : MarketBook) : Message → MarketBook
  | .diff d => b.applyDiff d
  | .snapshot S => b.applySnapshot S

/-- The book after the updates, from the empty one. -/
def history (messages : List Message) : MarketBook := messages.foldl apply new

theorem history_snoc (messages : List Message) (m : Message) :
    history (messages ++ [m]) = (history messages).apply m := by
  simp [history]

end MarketBook

def Message.isSnapshot : Message → Bool
  | .diff _ => false
  | .snapshot _ => true

/-- The messages from the most recent snapshot on, or all of them if there is none. -/
def sinceSnapshot : List Message → List Message
  | [] => []
  | m :: ms => if ms.any Message.isSnapshot then sinceSnapshot ms else m :: ms

/-- The entries of a message for one side. Those of a snapshot with a quantity of zero do not
count. -/
def Message.entries (s : Side) : Message → List (Price × Qty)
  | .diff d => d.entries s
  | .snapshot S => (S.entries s).filter (fun e => 0 < e.2.val)

/-- The entries since and including the most recent snapshot, in the order in which they came. -/
def mentions (s : Side) (messages : List Message) : List (Price × Qty) :=
  (sinceSnapshot messages).flatMap (Message.entries s)

/-- The last entry that names the price has the quantity `n`, and that is not zero. -/
def Quoted (messages : List Message) (s : Side) (p : Price) (n : Qty) : Prop :=
  lastFor p (mentions s messages) = some n ∧ 0 < n.val

theorem sinceSnapshot_diff (messages : List Message) (d : DepthUpdate) :
    sinceSnapshot (messages ++ [.diff d]) = sinceSnapshot messages ++ [.diff d] := by
  induction messages with
  | nil => rfl
  | cons m ms ih =>
    have hany : (ms ++ [Message.diff d]).any Message.isSnapshot = ms.any Message.isSnapshot := by
      simp [Message.isSnapshot]
    rw [List.cons_append, sinceSnapshot, sinceSnapshot, hany, ih]
    split <;> rfl

theorem sinceSnapshot_snapshot (messages : List Message) (S : Snapshot) :
    sinceSnapshot (messages ++ [.snapshot S]) = [.snapshot S] := by
  induction messages with
  | nil => rfl
  | cons m ms ih =>
    have hany : (ms ++ [Message.snapshot S]).any Message.isSnapshot = true := by
      simp [Message.isSnapshot]
    rw [List.cons_append, sinceSnapshot, if_pos hany, ih]

theorem mentions_diff (s : Side) (messages : List Message) (d : DepthUpdate) :
    mentions s (messages ++ [.diff d]) = mentions s messages ++ d.entries s := by
  simp [mentions, sinceSnapshot_diff, Message.entries]

theorem mentions_snapshot (s : Side) (messages : List Message) (S : Snapshot) :
    mentions s (messages ++ [.snapshot S]) = (S.entries s).filter (fun e => 0 < e.2.val) := by
  simp [mentions, sinceSnapshot_snapshot, Message.entries]

/-! ## The last mention counts -/

theorem lastFor_append (p : Price) (entries later : List (Price × Qty)) :
    lastFor p (entries ++ later) = (lastFor p later).or (lastFor p entries) := by
  induction later using List.reverseRecOn with
  | nil => simp
  | append_singleton later e ih =>
    rw [← List.append_assoc, lastFor_snoc, lastFor_snoc, ih]
    split <;> rfl

theorem Qty.toLevel_eq_some {n m : Qty} : n.toLevel = some m ↔ n = m ∧ 0 < m.val := by
  unfold Qty.toLevel
  split
  · next h =>
    constructor
    · rintro ⟨rfl⟩
      exact ⟨rfl, h⟩
    · rintro ⟨rfl, -⟩
      rfl
  · next h =>
    constructor
    · intro hn
      simp at hn
    · rintro ⟨rfl, hpos⟩
      exact absurd hpos h

namespace MarketBook

theorem level_history (messages : List Message) (s : Side) (p : Price) :
    (history messages).level (s, p) = (lastFor p (mentions s messages)).bind Qty.toLevel := by
  induction messages using List.reverseRecOn with
  | nil => cases s <;> rfl
  | append_singleton messages m ih =>
    rw [history_snoc]
    cases m with
    | diff d =>
      rw [apply, level_applyDiff, mentions_diff, lastFor_append, Patch.apply, DepthUpdate.patch, ih]
      cases lastFor p (d.entries s) <;> rfl
    | snapshot S =>
      rw [apply, level_applySnapshot, mentions_snapshot, Snapshot.levels]
      cases hlast : lastFor p ((S.entries s).filter (fun e => 0 < e.2.val)) with
      | none => rfl
      | some n =>
        have hn := (List.mem_filter.mp (lastFor_mem hlast)).2
        exact (if_pos (of_decide_eq_true hn)).symm

theorem level_history_iff (messages : List Message) (s : Side) (p : Price) (n : Qty) :
    (history messages).level (s, p) = some n ↔ Quoted messages s p n := by
  rw [level_history, Option.bind_eq_some_iff]
  constructor
  · rintro ⟨m, hlast, hm⟩
    obtain ⟨rfl, hpos⟩ := Qty.toLevel_eq_some.mp hm
    exact ⟨hlast, hpos⟩
  · rintro ⟨hlast, hpos⟩
    exact ⟨n, hlast, Qty.toLevel_eq_some.mpr ⟨rfl, hpos⟩⟩

/-! ## What `depth` lists -/

/-- The whole of one side, best price first. -/
def listing (b : MarketBook) : Side → List (Price × Qty)
  | .buy => b.bids.entries.map (fun e => (ofDual e.1, e.2))
  | .sell => b.asks.entries

theorem depth_eq (b : MarketBook) (s : Side) (n : Nat) : b.depth s n = (b.listing s).take n := by
  cases s with
  | buy => exact List.map_take
  | sell => rfl

theorem listing_sorted (b : MarketBook) (s : Side) :
    (b.listing s).Pairwise (fun x y => s.better x.1 y.1) := by
  cases s with
  | buy =>
    rw [listing, List.pairwise_map]
    exact b.bids.sorted
  | sell => exact b.asks.sorted

theorem mem_listing (b : MarketBook) (s : Side) (p : Price) (n : Qty) :
    (p, n) ∈ b.listing s ↔ b.level (s, p) = some n := by
  cases s with
  | buy =>
    rw [level, ← SortedMap.mem_entries, listing, List.mem_map]
    constructor
    · rintro ⟨⟨p', n'⟩, hm, he⟩
      obtain ⟨rfl, rfl⟩ := Prod.mk.inj he
      exact hm
    · intro hm
      exact ⟨(toDual p, n), hm, rfl⟩
  | sell => exact SortedMap.mem_entries _ _ _

theorem bestBid_eq_head? (b : MarketBook) : b.bestBid = (b.listing .buy).head? := by
  simp [bestBid, SortedMap.first?, listing]

theorem bestAsk_eq_head? (b : MarketBook) : b.bestAsk = (b.listing .sell).head? := rfl

end MarketBook

/-- The `n` best of the levels, strictly best first. -/
structure ListsBest (s : Side) (n : Nat) (quoted : Price → Qty → Prop) (l : List (Price × Qty)) :
    Prop where
  sorted : l.Pairwise (fun x y => s.better x.1 y.1)
  once : (l.map Prod.fst).Nodup
  listed : ∀ p q, (p, q) ∈ l → quoted p q
  length_le : l.length ≤ n
  /-- What is left out is worse than all that is listed, and the list is full. -/
  best : ∀ p q, quoted p q → (p, q) ∈ l ∨ l.length = n ∧ ∀ x ∈ l, s.better x.1 p

theorem ListsBest.take {s : Side} {l : List (Price × Qty)}
    (h : l.Pairwise (fun x y => s.better x.1 y.1)) (n : Nat) :
    ListsBest s n (fun p q => (p, q) ∈ l) (l.take n) where
  sorted := h.sublist (List.take_sublist n l)
  once := by
    rw [List.Nodup, List.pairwise_map]
    apply (h.sublist (List.take_sublist n l)).imp
    intro x y hxy hp
    rw [hp] at hxy
    exact s.better_irrefl _ hxy
  listed p q hm := List.mem_of_mem_take hm
  length_le := List.length_take_le n l
  best p q hm := by
    rw [← List.take_append_drop n l] at h hm
    rcases List.mem_append.mp hm with hm | hm
    · exact Or.inl hm
    · right
      constructor
      · have hlt : 0 < (l.drop n).length := List.length_pos_of_mem hm
        rw [List.length_drop] at hlt
        rw [List.length_take]
        omega
      · intro x hx
        exact (List.pairwise_append.mp h).2.2 x hx (p, q) hm

theorem ListsBest.congr {s : Side} {n : Nat} {quoted quoted' : Price → Qty → Prop}
    {l : List (Price × Qty)} (h : ListsBest s n quoted l) (he : ∀ p q, quoted p q ↔ quoted' p q) :
    ListsBest s n quoted' l where
  sorted := h.sorted
  once := h.once
  listed p q hm := (he p q).mp (h.listed p q hm)
  length_le := h.length_le
  best p q hp := h.best p q ((he p q).mpr hp)

namespace MarketBook

theorem depth_history (messages : List Message) (s : Side) (n : Nat) :
    ListsBest s n (Quoted messages s) ((history messages).depth s n) := by
  rw [depth_eq]
  apply (ListsBest.take (listing_sorted _ s) n).congr
  intro p q
  rw [mem_listing, level_history_iff]

/-! ## Diffs that repeat or exchange -/

theorem sides_eq_of_level {b b' : MarketBook} (h : b.level = b'.level) :
    b.bids = b'.bids ∧ b.asks = b'.asks := by
  constructor
  · apply SortedMap.ext_get?
    intro k
    exact congrFun h (.buy, ofDual k)
  · apply SortedMap.ext_get?
    intro k
    exact congrFun h (.sell, k)

theorem eq_of_level {b b' : MarketBook} (h : b.level = b'.level)
    (hid : b.lastUpdateId = b'.lastUpdateId) : b = b' := by
  obtain ⟨hbids, hasks⟩ := sides_eq_of_level h
  obtain ⟨bids, asks, id⟩ := b
  obtain rfl : bids = b'.bids := hbids
  obtain rfl : asks = b'.asks := hasks
  obtain rfl : id = b'.lastUpdateId := hid
  rfl

theorem applyDiff_applyDiff_self (b : MarketBook) (d : DepthUpdate) :
    (b.applyDiff d).applyDiff d = b.applyDiff d := by
  have hlevel : ((b.applyDiff d).applyDiff d).level = (b.applyDiff d).level := by
    rw [level_applyDiff, level_applyDiff]
    funext x
    unfold Patch.apply
    cases d.patch x <;> rfl
  exact eq_of_level hlevel rfl

end MarketBook

/-- The two diffs name no price on a side in common. -/
def DepthUpdate.Apart (d d' : DepthUpdate) : Prop :=
  ∀ s p n n', (p, n) ∈ d.entries s → (p, n') ∉ d'.entries s

namespace MarketBook

theorem level_applyDiff_comm (b : MarketBook) {d d' : DepthUpdate} (h : d.Apart d') :
    ((b.applyDiff d).applyDiff d').level = ((b.applyDiff d').applyDiff d).level := by
  simp only [level_applyDiff]
  funext ⟨s, p⟩
  have hno : d.patch (s, p) = none ∨ d'.patch (s, p) = none := by
    unfold DepthUpdate.patch
    cases hd : lastFor p (d.entries s) with
    | none => exact Or.inl rfl
    | some n =>
      right
      rw [lastFor_eq_none (h s p n · (lastFor_mem hd))]
      rfl
  unfold Patch.apply
  rcases hno with hno | hno <;> simp [hno]

theorem history_snapshot (older later : List Message) (S : Snapshot) :
    history (older ++ .snapshot S :: later) = history (.snapshot S :: later) := by
  rw [history, List.foldl_append]
  rfl

/-- Whatever the messages, the book shows the last mention of each price since the last snapshot,
and lists the best of them. The last diff can be repeated, and diffs without a common price can be
exchanged. -/
theorem last_write_wins (messages : List Message) :
    (∀ s p n, (history messages).level (s, p) = some n ↔ Quoted messages s p n) ∧
    (∀ older S later, messages = older ++ .snapshot S :: later →
      history messages = history (.snapshot S :: later)) ∧
    (∀ s n, ListsBest s n (Quoted messages s) ((history messages).depth s n)) ∧
    (∀ n, ((history messages).depth .buy (n + 1)).head? = (history messages).bestBid ∧
      ((history messages).depth .sell (n + 1)).head? = (history messages).bestAsk) ∧
    (∀ d, messages.getLast? = some (.diff d) →
      (history messages).applyDiff d = history messages) ∧
    (∀ d d' : DepthUpdate, d.Apart d' →
      (((history messages).applyDiff d).applyDiff d').bids =
        (((history messages).applyDiff d').applyDiff d).bids ∧
      (((history messages).applyDiff d).applyDiff d').asks =
        (((history messages).applyDiff d').applyDiff d).asks) := by
  refine ⟨level_history_iff messages, ?_, depth_history messages, ?_, ?_, ?_⟩
  · rintro older S later rfl
    exact history_snapshot older later S
  · intro n
    rw [depth_eq, depth_eq, bestBid_eq_head?, bestAsk_eq_head?]
    constructor <;> rw [List.head?_take, if_neg (Nat.succ_ne_zero n)]
  · intro d hlast
    obtain ⟨before, rfl⟩ := List.getLast?_eq_some_iff.mp hlast
    rw [history_snoc]
    exact applyDiff_applyDiff_self (history before) d
  · intro d d' h
    exact sides_eq_of_level (level_applyDiff_comm (history messages) h)

/-! ## Prices named more than once -/

def repeatedBids : DepthUpdate :=
  { firstUpdateId := 8, finalUpdateId := 9,
    bids := [(⟨100⟩, ⟨0⟩), (⟨100⟩, ⟨7⟩), (⟨99⟩, ⟨4⟩), (⟨99⟩, ⟨0⟩)], asks := [] }

def oneAsk : DepthUpdate :=
  { firstUpdateId := 10, finalUpdateId := 10, bids := [], asks := [(⟨102⟩, ⟨6⟩)] }

def repeatedSnapshot : Snapshot :=
  { lastUpdateId := 7, bids := [(⟨100⟩, ⟨3⟩), (⟨98⟩, ⟨2⟩), (⟨98⟩, ⟨0⟩)], asks := [(⟨101⟩, ⟨1⟩)] }

/-- An ask from before the snapshot, repeats within the snapshot and within the diff. -/
def repeatedPrices : List Message := [.diff oneAsk, .snapshot repeatedSnapshot, .diff repeatedBids]

theorem last_write_wins_repeatedPrices :
    (history repeatedPrices).level (.buy, ⟨100⟩) = some ⟨7⟩ ∧
    (history repeatedPrices).level (.buy, ⟨98⟩) = some ⟨2⟩ ∧
    (history repeatedPrices).level (.sell, ⟨102⟩) ≠ some ⟨6⟩ ∧
    (history repeatedPrices).applyDiff repeatedBids = history repeatedPrices ∧
    (((history repeatedPrices).applyDiff repeatedBids).applyDiff oneAsk).asks =
      (((history repeatedPrices).applyDiff oneAsk).applyDiff repeatedBids).asks := by
  obtain ⟨hlevel, -, -, -, hlast, hapart⟩ := last_write_wins repeatedPrices
  refine ⟨(hlevel _ _ _).mpr ⟨by decide +kernel, by decide⟩,
    (hlevel _ _ _).mpr ⟨by decide +kernel, by decide⟩, ?_, hlast repeatedBids rfl, ?_⟩
  · rw [Ne, hlevel]
    rintro ⟨hask, -⟩
    revert hask
    decide +kernel
  · apply (hapart repeatedBids oneAsk _).2
    intro s p n n' hm hm'
    cases s <;> simp [DepthUpdate.entries, repeatedBids, oneAsk] at hm hm'

end MarketBook

end Ordust
