import PallaSync.Retries
import PallaSync.Batches

/-!
# Repair

An admin may send records again with the log entries the relay gave for
them, from any incarnation of the log. The relay believes only its own log:
a record is accepted when the retained log holds exactly the claimed entry.
Such an entry has its object and its receipt already (`Sound`), so accepting
it does nothing but return that receipt. The other transactions of the
upload record rejections.
-/

namespace PallaSync

open Atomic Machine

/-! ## What is retained -/

/-- Nothing was accepted between the stores: they agree on every table but
the transparency chain and its heads, where rejections at most were added,
and on every field of the chain row that is not about it. -/
structure Store.AcceptsNothing (st st' : Store) : Prop where
  tables : st'.unwitnessed = st.unwitnessed
  chain : ∀ c, st.chain = some c → ∃ c', st'.chain = some c' ∧ c' = { c with
    transparencyIndex := c'.transparencyIndex
    transparencyHash := c'.transparencyHash }
  transparency : ∀ q t, st'.transparency.find? q = some t →
    st.transparency.find? q = some t ∨ t.entry.operation = .reject
  heads : ∀ q x, st.heads.find? q = some x → st'.heads.find? q = some x

theorem Store.AcceptsNothing.refl (st : Store) : st.AcceptsNothing st :=
  ⟨rfl, fun c hc => ⟨c, hc, rfl⟩, fun _ _ h => .inl h, fun _ _ h => h⟩

/-- What the evidence of rejections does to a ledger. -/
structure Rejected (L L' : Ledger) : Prop where
  chain : L'.chain = { L.chain with
    transparencyIndex := L'.chain.transparencyIndex
    transparencyHash := L'.chain.transparencyHash }
  transparency : ∀ q t, L'.transparency.find? q = some t →
    L.transparency.find? q = some t ∨ t.entry.operation = .reject

theorem Step.rejected {X : Crypto} {digest : String} {L L' : Ledger}
    (h : Step X (.evidence .reject digest) L L') : Rejected L L' := by
  cases h with
  | evidence hw =>
      obtain ⟨te, hn, hc⟩ := hw.noted
      refine ⟨by rw [hc]; rfl, fun q t ht => ?_⟩
      rw [hn.find?] at ht
      split at ht
      · obtain rfl := Option.some.inj ht
        exact .inr hn.operation
      · exact .inl ht

theorem Steps.rejected {X : Crypto} {ms : List Move} {L L' : Ledger} (h : Steps X ms L L')
    (hms : ∀ m ∈ ms, ∃ digest, m = .evidence .reject digest) : Rejected L L' := by
  induction h with
  | nil => exact ⟨rfl, fun _ _ h => .inl h⟩
  | cons hm _ ih =>
      obtain ⟨digest, rfl⟩ := hms _ List.mem_cons_self
      have h := hm.rejected
      have hrest := ih fun m hmem => hms m (List.mem_cons_of_mem _ hmem)
      refine ⟨by rw [hrest.chain, h.chain], fun q t ht => ?_⟩
      obtain ht | hop := hrest.transparency q t ht
      · exact h.transparency q t ht
      · exact .inr hop

section Steps

variable {X : Crypto} {cfg : RelayConfig} {es : List Event}

end Steps

namespace Sample

end Sample

end PallaSync
