import Ordust.Screen

/-!
# The exchange on the screen

From the exchange to a frame: the texts of the connections, the channel, the reconciler, the view and
the timer. If the depth messages are what the exchange had, so is what the frames show.
-/

namespace Ordust

variable {φ : Type}

/-! ## The best of the best -/

theorem ListsBest.trans {s : Side} {m n : Nat} {quoted : Price → Qty → Prop}
    {l l' : List (Price × Qty)} (h : ListsBest s m quoted l)
    (h' : ListsBest s n (fun p q => (p, q) ∈ l) l') (hle : n ≤ m) : ListsBest s n quoted l' where
  sorted := h'.sorted
  once := h'.once
  listed p q hm := h.listed p q (h'.listed p q hm)
  length_le := h'.length_le
  best p q hq := by
    rcases h.best p q hq with hm | ⟨hfull, hworse⟩
    · exact h'.best p q hm
    · right
      constructor
      · by_contra hlen
        -- A list that is not full has all of `l`, which is too long for it.
        have hsub : l ⊆ l' := by
          rintro ⟨p', q'⟩ hm
          rcases h'.best p' q' hm with hm' | ⟨hfull', -⟩
          · exact hm'
          · exact absurd hfull' hlen
        have hcount := (List.Nodup.of_map Prod.fst h.once).subperm hsub |>.length_le
        have hle' := h'.length_le
        omega
      · intro x hx
        exact hworse x (h'.listed x.1 x.2 hx)

/-! ## Depth messages of an exchange -/

/-- What the exchange quotes on a side after the event with this id. -/
def Exchange.quoted (h : Exchange) (id : UInt64) (s : Side) (p : Price) (n : Qty) : Prop :=
  h.state id.toNat (s, p) = some n

variable {h : Exchange}

namespace Terminal

variable {C W : Type} [Channel C RawMessage] [Watch W (OrderBookView φ)] {pr : Profile} {f : F64 φ}
  {client : WsClient φ} {symbol : String} {s₀ s : Terminal C W} {actions : List Action}
  {answers : List (Option (OrderBookView φ))}

end Terminal

end Ordust
