import Ordust.Noninterference

/-!
# Calls that do not meet

Calls that trade nothing, name different orders and do not bring orders to one queue may come in any
order: each answers the same, and so does everything after them.
-/

namespace Ordust

open RefBook

variable {S : Type} [Slab S OrderNode]

namespace RefBook

/-! ## What a call without trades does -/

/-- A change of the resting orders. -/
inductive Edit where
  | keep
  | erase (id : OrderId)
  | rest (o : Order)

/-- The order that it is about. -/
def Edit.id? : Edit → Option OrderId
  | .keep => none
  | .erase id => some id
  | .rest o => some o.id

def apply (r : RefBook) : Edit → RefBook
  | .keep => r
  | .erase id => r.erase id
  | .rest o => r.rest o

/-- Nothing that rests opposite crosses the order of the call. -/
def Passive (r : RefBook) : Call → Prop
  | .submit o => ∀ x ∈ r (oppositeSide o.side), o.crossesAt x.px = false
  | .cancel _ => True

/-- What a passive submission that passes the checks does with its order. -/
def unmatched (o : Order) : Response × Edit :=
  match o.tif with
  | .gtc => (.ok [.accepted o.id, .restingOnBook o.id o.px o.remainingQty], .rest o)
  | .ioc => (.ok [.accepted o.id, .cancelled o.id], .keep)
  | .fok => (.error .fokNotFillable, .keep)

/-- The answer of a passive call, and what it changes. Of the book only matters whether it has the
identifier. -/
def quietly (r : RefBook) : Call → Response × Edit
  | .submit o =>
    match r.validate o with
    | .error err => (.error err, .keep)
    | .ok () => unmatched o
  | .cancel id =>
    if id ∈ r.ids then (.ok [.cancelled id], .erase id) else (.error (.orderNotFound id), .keep)

variable {r r' : RefBook} {c d : Call} {o o' : Order}

theorem quietly_congr (h : c.id ∈ r'.ids ↔ c.id ∈ r.ids) : r'.quietly c = r.quietly c := by
  cases c with
  | cancel id =>
    unfold quietly
    simp only [show id ∈ r'.ids ↔ id ∈ r.ids from h]
  | submit o =>
    unfold quietly validate
    simp only [show o.id ∈ r'.ids ↔ o.id ∈ r.ids from h]

theorem quietly_edit_id {id : OrderId} (h : (r.quietly c).2.id? = some id) : id = c.id := by
  cases c with
  | cancel id' =>
    rw [quietly] at h
    split at h
    · exact (Option.some.inj h).symm
    · simp [Edit.id?] at h
  | submit o =>
    rw [quietly] at h
    split at h
    · simp [Edit.id?] at h
    · unfold unmatched at h
      split at h
      · exact (Option.some.inj h).symm
      · simp [Edit.id?] at h
      · simp [Edit.id?] at h

theorem headCrosses_passive (h : r.Passive (.submit o)) :
    headCrosses o (r (oppositeSide o.side)) = false := by
  unfold headCrosses
  rw [Option.any_eq_false]
  intro x hx
  simp [h x (List.mem_of_mem_head? hx)]

theorem admitted_passive (h : r.Passive (.submit o)) (hp : o.Priced) :
    admitted o (r (oppositeSide o.side)) = [] := by
  cases hl : r (oppositeSide o.side) with
  | nil => rfl
  | cons x xs =>
    apply admitted_cons_of_neg
    intro ha
    have hx := h x (by rw [hl]; exact List.mem_cons_self)
    rw [crossesAt_of_admits hp ha] at hx
    simp at hx

theorem call_passive (h : r.Passive c) :
    r.call c = ((r.quietly c).1, r.apply (r.quietly c).2) := by
  cases c with
  | cancel id =>
    rw [call, cancel, quietly]
    split <;> rfl
  | submit o =>
    rw [call, submit_eq, quietly]
    cases hv : r.validate o with
    | error err => rfl
    | ok u =>
      obtain ⟨hpos, hp, -, -⟩ := validate_ok hv
      have hfill : r.canFullyFill o = false := by
        rw [canFullyFill_eq, admitted_passive h hp]
        exact decide_eq_false (by simp; omega)
      have hstop := matchOrders_stop o _ (Or.inr (headCrosses_passive h))
      have hrem : ¬ o.rem = 0 := by omega
      simp only [hfill, settle, hstop, Function.update_eq_self, remainder, if_neg hrem, unmatched]
      cases ht : o.tif <;> rfl

/-! ## Changes of different orders -/

theorem mem_ids_apply {e : Edit} {id : OrderId} (h : e.id? ≠ some id) :
    id ∈ (r.apply e).ids ↔ id ∈ r.ids := by
  cases e with
  | keep => exact Iff.rfl
  | erase id' => exact mem_ids_erase (fun hc => h (congrArg some hc.symm))
  | rest o =>
    rw [apply, (ids_rest r o).mem_iff, List.mem_cons, or_iff_right]
    exact fun hc => h (congrArg some hc.symm)

theorem insertOrder_prefix {before os : List Order} (h : ∀ y ∈ before, ¬ o.side.better o.px y.px) :
    insertOrder o (before ++ os) = before ++ insertOrder o os := by
  have hgood : ∀ y ∈ before, decide (¬ o.side.better o.px y.px) = true := by
    intro y hy
    exact decide_eq_true (h y hy)
  rw [insertOrder, List.takeWhile_append_of_pos hgood, List.dropWhile_append_of_pos hgood,
    List.append_assoc, insertOrder]

theorem insertOrder_comm_of_better {os : List Order} (hs : Sorted o.side os) (hside : o'.side = o.side)
    (hb : o.side.better o.px o'.px) :
    insertOrder o' (insertOrder o os) = insertOrder o (insertOrder o' os) := by
  obtain ⟨before, after, rfl, hbefore, hafter, hins⟩ := hs.exists_cut
  have hworse : ∀ y ∈ before, ¬ o'.side.better o'.px y.px := by
    intro y hy hc
    rw [hside] at hc
    exact hbefore y hy (Side.better_trans hb hc)
  have hself : ∀ y ∈ [o], ¬ o'.side.better o'.px y.px := by
    intro y hy
    rw [List.mem_singleton.mp hy, hside]
    exact Side.better_asymm hb
  have hbehind : ∀ y ∈ insertOrder o' after, o.side.better o.px y.px := by
    intro y hy
    rcases List.mem_cons.mp ((insertOrder_perm o' after).subset hy) with rfl | hy
    · exact hb
    · exact hafter y hy
  calc insertOrder o' (insertOrder o (before ++ after))
      = before ++ ([o] ++ insertOrder o' after) := by
        rw [hins, insertOrder_prefix hworse, ← insertOrder_prefix hself]
        rfl
    _ = insertOrder o (before ++ insertOrder o' after) :=
        (insertOrder_append o before _ hbefore hbehind).symm
    _ = insertOrder o (insertOrder o' (before ++ after)) := by
        rw [ insertOrder_prefix hworse]

theorem insertOrder_comm {os : List Order} (hs : Sorted o.side os) (hside : o'.side = o.side)
    (hne : o'.px ≠ o.px) : insertOrder o' (insertOrder o os) = insertOrder o (insertOrder o' os) := by
  by_cases hb : o.side.better o.px o'.px
  · exact insertOrder_comm_of_better hs hside hb
  · have hb' : o'.side.better o'.px o.px := by
      by_contra hc
      rw [hside] at hc
      exact hne (Side.eq_of_not_better hc hb)
    exact (insertOrder_comm_of_better (hside ▸ hs) hside.symm hb').symm

/-- They do not come to rest in one queue. -/
def Edit.Apart : Edit → Edit → Prop
  | .rest o, .rest o' => o'.side = o.side → o'.px ≠ o.px
  | _, _ => True

theorem erase_rest_comm (hok : Ok r) {id : OrderId} (hid : o.id ≠ id) :
    (r.erase id).rest o = (r.rest o).erase id := by
  rw [rest, rest, erase_update]
  congr 1
  exact insertOrder_without (hok.sorted o.side) hid

theorem apply_comm (hok : Ok r) {e f : Edit} (hid : ∀ id, e.id? = some id → f.id? ≠ some id)
    (ha : e.Apart f) : (r.apply e).apply f = (r.apply f).apply e := by
  cases e with
  | keep => rfl
  | erase id =>
    cases f with
    | keep => rfl
    | erase id' =>
      funext s
      show without id' (without id (r s)) = without id (without id' (r s))
      simp only [without, List.filter_filter]
      congr 1
      funext x
      exact Bool.and_comm _ _
    | rest o => exact erase_rest_comm hok (fun hc => hid id rfl (congrArg some hc))
  | rest o =>
    cases f with
    | keep => rfl
    | erase id => exact (erase_rest_comm hok (fun hc => hid o.id rfl (congrArg some hc.symm))).symm
    | rest o' =>
      by_cases hside : o'.side = o.side
      · have hcomm := insertOrder_comm (hok.sorted o.side) hside (ha hside)
        show (r.rest o).rest o' = (r.rest o').rest o
        rw [rest, rest, rest, rest, hside, Function.update_self, Function.update_self,
          Function.update_idem, Function.update_idem, hcomm]
      · show (r.rest o).rest o' = (r.rest o').rest o
        rw [rest, rest, rest, rest, Function.update_of_ne hside, Function.update_of_ne (Ne.symm hside),
          Function.update_comm hside]

/-! ## Calls that do not meet -/

end RefBook

/-- Two orders that neither cross nor queue at one price. -/
def Call.Apart : Call → Call → Prop
  | .submit o, .submit o' =>
    if o'.side = o.side then o'.px ≠ o.px
    else o.crossesAt o'.px = false ∧ o'.crossesAt o.px = false
  | _, _ => True

instance : DecidableRel Call.Apart := by
  intro c d
  unfold Call.Apart
  cases c <;> cases d <;> infer_instance

theorem Call.apart_queues {o o' : Order} (h : o'.side = o.side) :
    (Call.submit o).Apart (.submit o') ↔ o'.px ≠ o.px :=
  iff_of_eq (if_pos h)

theorem Call.apart_sides {o o' : Order} (h : o'.side ≠ o.side) :
    (Call.submit o).Apart (.submit o') ↔ o.crossesAt o'.px = false ∧ o'.crossesAt o.px = false :=
  iff_of_eq (if_neg h)

theorem Call.Apart.symm {c d : Call} (h : c.Apart d) : d.Apart c := by
  cases c with
  | cancel id => cases d <;> trivial
  | submit o =>
    cases d with
    | cancel id => trivial
    | submit o' =>
      by_cases hside : o'.side = o.side
      · exact (apart_queues hside.symm).mpr ((apart_queues hside).mp h).symm
      · exact (apart_sides (Ne.symm hside)).mpr ((apart_sides hside).mp h).symm

namespace RefBook

variable {r r' : RefBook} {c d : Call} {o o' : Order} {cs ds : List Call}

instance (r : RefBook) (c : Call) : Decidable (r.Passive c) := by
  unfold Passive
  cases c <;> infer_instance

theorem quietly_rest (h : (r.quietly c).2 = .rest o) : c = .submit o := by
  cases c with
  | cancel id =>
    rw [quietly] at h
    split at h <;> simp at h
  | submit o' =>
    rw [quietly] at h
    split at h
    · simp at h
    · unfold unmatched at h
      split at h
      · rw [Edit.rest.inj h]
      · simp at h
      · simp at h

theorem quietly_apart (h : c.Apart d) : (r.quietly c).2.Apart (r'.quietly d).2 := by
  cases he : (r.quietly c).2 with
  | keep => trivial
  | erase id => trivial
  | rest o =>
    cases hf : (r'.quietly d).2 with
    | keep => trivial
    | erase id => trivial
    | rest o' =>
      rw [quietly_rest he, quietly_rest hf] at h
      exact fun hside => (Call.apart_queues hside).mp h

theorem Passive.after (h : r.Passive d) (ha : c.Apart d) :
    (r.apply (r.quietly c).2).Passive d := by
  cases d with
  | cancel id => trivial
  | submit o' =>
    intro x hx
    cases he : (r.quietly c).2 with
    | keep =>
      rw [he] at hx
      exact h x hx
    | erase id =>
      rw [he] at hx
      exact h x (mem_without.mp hx).1
    | rest o =>
      rw [he] at hx
      rcases mem_rest.mp hx with ⟨hside, rfl⟩ | hx
      · have hne : o'.side ≠ x.side := fun hc => oppositeSide_ne o'.side (hside.trans hc.symm)
        rw [quietly_rest he] at ha
        exact ((Call.apart_sides hne).mp ha).2
      · exact h x hx

/-- Calls that trade nothing, are about different orders and do not meet. -/
structure Block (r : RefBook) (cs : List Call) : Prop where
  passive : ∀ c ∈ cs, r.Passive c
  apart : cs.Pairwise (fun c d => c.id ≠ d.id ∧ c.Apart d)

theorem Block.perm (h : r.Block cs) (hp : cs.Perm ds) : r.Block ds where
  passive := fun c hc => h.passive c (hp.mem_iff.mpr hc)
  apart := (hp.pairwise_iff (fun hcd => ⟨hcd.1.symm, hcd.2.symm⟩)).mp h.apart

theorem Block.call (h : r.Block (c :: cs)) :
    r.call c = ((r.quietly c).1, r.apply (r.quietly c).2) ∧ (r.call c).2.Block cs ∧
      ∀ d ∈ cs, (r.call c).2.quietly d = r.quietly d := by
  have hcall := call_passive (h.passive c List.mem_cons_self)
  obtain ⟨hc, hcs⟩ := List.pairwise_cons.mp h.apart
  refine ⟨hcall, ⟨?_, hcs⟩, ?_⟩
  · intro d hd
    rw [hcall]
    exact (h.passive d (List.mem_cons_of_mem _ hd)).after (hc d hd).2
  · intro d hd
    rw [hcall]
    apply quietly_congr
    apply mem_ids_apply
    intro he
    exact (hc d hd).1 (quietly_edit_id he).symm

theorem Block.answers (h : r.Block cs) :
    (r.run cs).1 = cs.map (fun c => (r.quietly c).1) := by
  induction cs generalizing r with
  | nil => rfl
  | cons c cs ih =>
    obtain ⟨hcall, hcs, hsame⟩ := h.call
    have hrest : cs.map (fun d => ((r.call c).2.quietly d).1) = cs.map (fun d => (r.quietly d).1) :=
      List.map_congr_left (fun d hd => by rw [hsame d hd])
    show (r.call c).1 :: ((r.call c).2.run cs).1 = _
    rw [ih hcs, hrest, hcall]
    rfl

theorem Block.call_comm (hok : Ok r) (h : r.Block (c :: d :: cs)) :
    ((r.call c).2.call d).2 = ((r.call d).2.call c).2 := by
  have hswap := h.perm (List.Perm.swap d c cs)
  obtain ⟨hid, hapart⟩ := (List.pairwise_cons.mp h.apart).1 d List.mem_cons_self
  obtain ⟨hc, hrest, hd'⟩ := h.call
  obtain ⟨hd, hrest', hc'⟩ := hswap.call
  rw [call_passive (hrest.passive d List.mem_cons_self), hd' d List.mem_cons_self,
    call_passive (hrest'.passive c List.mem_cons_self), hc' c List.mem_cons_self, hc, hd]
  apply apply_comm hok _ (quietly_apart hapart)
  intro id he hf
  exact hid ((quietly_edit_id he).symm.trans (quietly_edit_id hf))

theorem Block.run_perm (hok : Ok r) (h : r.Block cs) (hp : cs.Perm ds) :
    (r.run cs).2 = (r.run ds).2 := by
  induction hp generalizing r with
  | nil => rfl
  | cons c _ ih => exact ih (hok.call c) h.call.2.1
  | swap c d cs =>
    have hcomm := h.call_comm hok
    show (((r.call d).2.call c).2.run cs).2 = (((r.call c).2.call d).2.run cs).2
    rw [hcomm]
  | trans hp hp' ih ih' => exact (ih hok h).trans (ih' hok (h.perm hp))

end RefBook

/-- The calls of a block may come in any order. Each answers the same, every later call answers the
same, and the book is the same in the end. -/
theorem block_in_any_order (before cs ds later : List Call)
    (h : NoAddOverflow S (before ++ (cs ++ later))) (h' : NoAddOverflow S (before ++ (ds ++ later)))
    (hp : cs.Perm ds) : ∃ (rs : List Response) (e : Engine S),
      (∀ pr, Engine.new.run pr before = .ok (rs, e)) ∧
      (e.book.resting.Block cs → ∃ (answer : Call → Response) (rs' : List Response) (e₁ e₂ : Engine S),
        (∀ pr, Engine.new.run pr (before ++ (cs ++ later)) = .ok (rs ++ (cs.map answer ++ rs'), e₁)) ∧
        (∀ pr, Engine.new.run pr (before ++ (ds ++ later)) = .ok (rs ++ (ds.map answer ++ rs'), e₂)) ∧
        e₂.book.Alike e₁.book) := by
  obtain ⟨e, -, hrun, -, hres, hok⟩ := reach h.of_append
  refine ⟨_, e, hrun, ?_⟩
  intro hblock
  obtain ⟨e₁, q₁, hrun₁, hrep₁, hres₁, -⟩ := reach h
  obtain ⟨e₂, q₂, hrun₂, hrep₂, hres₂, -⟩ := reach h'
  have hsame := hblock.run_perm hok hp
  rw [run_append, ← hres, run_append] at hrun₁ hres₁ hrun₂ hres₂
  rw [hblock.answers] at hrun₁
  rw [(hblock.perm hp).answers, ← hsame] at hrun₂
  rw [← hsame] at hres₂
  exact ⟨_, _, e₁, e₂, hrun₁, hrun₂, hrep₂.alike hrep₁ (hres₂.trans hres₁.symm)⟩

/-- Quotes on both sides, and the cancellation of one that rests. -/
def quotes : List Call :=
  [.submit (makeOrder 3 .buy 99 4 3 .limit .gtc), .cancel ⟨1⟩,
    .submit (makeOrder 4 .buy 98 4 4 .limit .gtc), .submit (makeOrder 5 .sell 102 4 5 .limit .gtc)]

theorem block_in_any_order_quotes :
    ∃ (rs rs' : List Response) (answer : Call → Response) (e₁ e₂ : Engine (FreeListSlab OrderNode)),
      (∀ pr, Engine.new.run pr (twoAsks ++ (quotes ++ [.cancel ⟨4⟩])) =
        .ok (rs ++ (quotes.map answer ++ rs'), e₁)) ∧
      (∀ pr, Engine.new.run pr (twoAsks ++ (quotes.reverse ++ [.cancel ⟨4⟩])) =
        .ok (rs ++ (quotes.reverse.map answer ++ rs'), e₂)) ∧
      e₂.book.Alike e₁.book := by
  obtain ⟨rs, e, hrun, hblock⟩ := block_in_any_order (S := FreeListSlab OrderNode) twoAsks quotes
    quotes.reverse [.cancel ⟨4⟩] (NoAddOverflow.of_isOk (by decide +kernel))
    (NoAddOverflow.of_isOk (by decide +kernel)) quotes.reverse_perm.symm
  obtain ⟨e', -, hrun', -, hres, -⟩ := reach twoAsks_noAddOverflow
  have he : e = e' := (Prod.mk.inj (Except.ok.inj ((hrun .debug).symm.trans (hrun' .debug)))).2
  obtain ⟨answer, rs', e₁, e₂, h₁, h₂, halike⟩ := hblock ⟨by
    rw [he, hres]
    decide +kernel, by decide +kernel⟩
  exact ⟨rs, rs', answer, e₁, e₂, h₁, h₂, halike⟩

end Ordust
