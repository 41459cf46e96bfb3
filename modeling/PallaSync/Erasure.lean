import PallaSync.Acts
import PallaSync.Sample

/-!
# Deleted chains

What still happens to a chain after its deletion committed. No request
executes on it any more; expiry, erasure and completion go on, and so do the
transactions that record a rejection, which do not look at the deletion. The
first three only remove things (`Frozen`); a rejection adds transparency
entries, but no row to the tables a deletion erases (`Drained`).
-/

namespace PallaSync

open Atomic Machine

/-! ## No new rows -/

/-- Every row of `t'` has a key of `t`. -/
def AddsNone {ρ κ : Type} [DecidableEq κ] {key : ρ → κ} (t t' : Table ρ key) : Prop :=
  ∀ k, t.find? k = none → t'.find? k = none

theorem AddsNone.of_eq {ρ κ : Type} [DecidableEq κ] {key : ρ → κ} {t t' : Table ρ key}
    (h : t' = t) : AddsNone t t' := fun _ hk => h ▸ hk

theorem AddsNone.trans {ρ κ : Type} [DecidableEq κ] {key : ρ → κ} {t u v : Table ρ key}
    (h : AddsNone t u) (h' : AddsNone u v) : AddsNone t v := fun k hk => h' k (h k hk)

theorem AddsNone.update {ρ κ : Type} [DecidableEq κ] {key : ρ → κ} {t : Table ρ key}
    {p : ρ → Bool} {f : ρ → ρ} (hf : ∀ r, key (f r) = key r) : AddsNone t (t.update p f hf) :=
  fun k hk => by
    rw [Table.find?_update, hk]
    rfl

/-- None of the eleven tables that a deletion erases has a new row. -/
structure Drained (st st' : Store) : Prop where
  objects : AddsNone st.objects st'.objects
  log : AddsNone st.log st'.log
  registry : AddsNone st.registry st'.registry
  outcomes : AddsNone st.outcomes st'.outcomes
  offers : AddsNone st.offers st'.offers
  cursors : AddsNone st.cursors st'.cursors
  imports : st.imports = none → st'.imports = none
  payloadNonces : AddsNone st.payloadNonces st'.payloadNonces
  registryHistory : st'.registryHistory ⊆ st.registryHistory
  offerHistory : st'.offerHistory ⊆ st.offerHistory
  handoffs : AddsNone st.handoffs st'.handoffs

/-- Moreover the chain row and the evidence stay as they are. -/
structure Frozen (st st' : Store) : Prop extends Drained st st' where
  chain : st'.chain = st.chain
  receipts : st'.receipts = st.receipts
  transparency : st'.transparency = st.transparency
  heads : st'.heads = st.heads
  deletion : st.deletion.isSome → st'.deletion.isSome

/-- The eleven tables have no row. -/
structure Store.Erased (st : Store) : Prop where
  objects : ∀ k, st.objects.find? k = none
  log : ∀ k, st.log.find? k = none
  registry : ∀ k, st.registry.find? k = none
  outcomes : ∀ k, st.outcomes.find? k = none
  offers : ∀ k, st.offers.find? k = none
  cursors : ∀ k, st.cursors.find? k = none
  imports : st.imports = none
  payloadNonces : ∀ k, st.payloadNonces.find? k = none
  registryHistory : st.registryHistory = []
  offerHistory : st.offerHistory = []
  handoffs : ∀ k, st.handoffs.find? k = none

section Frames

variable {st st' st'' : Store}

theorem Drained.refl (st : Store) : Drained st st :=
  ⟨.of_eq rfl, .of_eq rfl, .of_eq rfl, .of_eq rfl, .of_eq rfl, .of_eq rfl, id, .of_eq rfl,
    List.Subset.refl _, List.Subset.refl _, .of_eq rfl⟩

theorem Drained.trans (h : Drained st st') (h' : Drained st' st'') : Drained st st'' :=
  ⟨h.objects.trans h'.objects, h.log.trans h'.log, h.registry.trans h'.registry,
    h.outcomes.trans h'.outcomes, h.offers.trans h'.offers, h.cursors.trans h'.cursors,
    fun hi => h'.imports (h.imports hi), h.payloadNonces.trans h'.payloadNonces,
    List.Subset.trans h'.registryHistory h.registryHistory,
    List.Subset.trans h'.offerHistory h.offerHistory,
    h.handoffs.trans h'.handoffs⟩

theorem Frozen.refl (st : Store) : Frozen st st :=
  ⟨.refl st, rfl, rfl, rfl, rfl, id⟩

theorem Frozen.of_eq (h : st' = st) : Frozen st st' := h ▸ .refl st

theorem Frozen.trans (h : Frozen st st') (h' : Frozen st' st'') : Frozen st st'' :=
  ⟨h.toDrained.trans h'.toDrained, h'.chain.trans h.chain, h'.receipts.trans h.receipts,
    h'.transparency.trans h.transparency, h'.heads.trans h.heads,
    fun hd => h'.deletion (h.deletion hd)⟩

/-- What is erased stays erased while no row is added. -/
theorem Store.Erased.drained (h : st.Erased) (hd : Drained st st') : st'.Erased :=
  ⟨fun k => hd.objects k (h.objects k), fun k => hd.log k (h.log k),
    fun k => hd.registry k (h.registry k), fun k => hd.outcomes k (h.outcomes k),
    fun k => hd.offers k (h.offers k), fun k => hd.cursors k (h.cursors k),
    hd.imports h.imports, fun k => hd.payloadNonces k (h.payloadNonces k),
    List.eq_nil_of_subset_nil (h.registryHistory ▸ hd.registryHistory),
    List.eq_nil_of_subset_nil (h.offerHistory ▸ hd.offerHistory),
    fun k => hd.handoffs k (h.handoffs k)⟩

theorem Store.cleared_erased (st : Store) : st.cleared.Erased :=
  ⟨fun _ => rfl, fun _ => rfl, fun _ => rfl, fun _ => rfl, fun _ => rfl, fun _ => rfl, rfl,
    fun _ => rfl, rfl, rfl, fun _ => rfl⟩

/-! ## Transactions on a deleted chain -/

theorem Store.erase_frozen (st : Store) : Frozen st st.erase := by
  unfold Store.erase
  split
  · exact ⟨⟨fun _ _ => rfl, fun _ _ => rfl, fun _ _ => rfl, fun _ _ => rfl, fun _ _ => rfl,
      fun _ _ => rfl, fun _ => rfl, fun _ _ => rfl, List.nil_subset _, List.nil_subset _,
      fun _ _ => rfl⟩, rfl, rfl, rfl, rfl, id⟩
  · exact .refl _

theorem Store.finish_frozen {X : Crypto} {t : Nat} (h : st.finish X t = .ok st') :
    Frozen st st' := by
  unfold Store.finish at h
  split at h
  · exact .of_eq (Except.ok.inj h).symm
  · split at h
    · obtain ⟨proof, -, h⟩ := Check.bind_ok.mp h
      obtain rfl := Check.pure_ok.mp h
      exact ⟨⟨.of_eq rfl, .of_eq rfl, .of_eq rfl, .of_eq rfl, .of_eq rfl, .of_eq rfl, id,
        .of_eq rfl, List.Subset.refl _, List.Subset.refl _, .of_eq rfl⟩, rfl, rfl, rfl, rfl,
        fun _ => rfl⟩
    · exact .of_eq (Except.ok.inj h).symm

theorem expireEpoch_frozen (st : Store) (c : Chain) (epoch : Nat) :
    Frozen st (st.expireEpoch c epoch) :=
  ⟨⟨.update ObjectRow.key_removed, .update LogRow.key_removed, .of_eq rfl, .of_eq rfl,
    .of_eq rfl, .of_eq rfl, id, .of_eq rfl, List.Subset.refl _, List.Subset.refl _,
    .update (f := fun r : HandoffRow => { r with expired := true }) fun _ => rfl⟩,
    rfl, rfl, rfl, rfl, id⟩

theorem expire_frozen {w w' : Work} (h : expire w = .ok ((), w')) :
    Frozen w.cell.store w'.cell.store := by
  simp only [expire, bind_ok, chain_ok, now_ok, look_ok] at h
  obtain ⟨c, _, ⟨rfl, rfl⟩, t, _, ⟨-, rfl⟩, _, _, ⟨rfl, rfl⟩, h⟩ := h
  refine each_preserves (P := fun x : Work => Frozen w.cell.store x.cell.store)
    (s := { w with tick := w.tick + 1 }) (fun e _ x y u hx hy => ?_) (.refl _) h
  obtain rfl := setStore_ok.mp hy
  exact hx.trans (expireEpoch_frozen _ _ _)

theorem expireStore_frozen {R : Relay} {o : Oracle} {t : Nat}
    (h : World.expireStore R o t st = .ok st') :
    Frozen st st' ∧ st'.deletion = st.deletion := by
  unfold World.expireStore at h
  split at h
  · obtain rfl := Except.ok.inj h
    exact ⟨.refl _, rfl⟩
  · split at h
    · obtain rfl := Except.ok.inj h
      exact ⟨.refl _, rfl⟩
    · obtain ⟨⟨u, b⟩, hrun, h⟩ := Check.bind_ok.mp h
      obtain rfl := Check.pure_ok.mp h
      obtain ⟨w, w', hw, hm, rfl⟩ := run_ok hrun
      simp only [bind_ok, check_ok] at hm
      obtain ⟨_, w₁, hexp, -, rfl⟩ := hm
      obtain ⟨t', hmoves⟩ := expire_moves (X := R.crypto) hexp
      have hfrozen := expire_frozen hexp
      have hdel := hmoves.deletion
      rw [hw] at hfrozen hdel
      exact ⟨hfrozen, hdel⟩

/-- The part of a store that evidence does not touch. -/
def Store.unwitnessed (st : Store) : Store :=
  { st with chain := none, transparency := .empty, heads := .empty }

theorem Drained.of_unwitnessed (h : st'.unwitnessed = st.unwitnessed) : Drained st st' := by
  simp only [Store.unwitnessed, Store.mk.injEq, true_and] at h
  obtain ⟨hobj, hreg, hlog, -, hhand, hout, hoff, hcur, hnon, hrh, hoh, himp, -⟩ := h
  exact ⟨.of_eq hobj, .of_eq hlog, .of_eq hreg, .of_eq hout, .of_eq hoff, .of_eq hcur,
    fun hi => himp.trans hi, .of_eq hnon, hrh ▸ List.Subset.refl _, hoh ▸ List.Subset.refl _,
    .of_eq hhand⟩

/-- A program that writes evidence and the chain row at most. -/
abbrev Witnesses {α : Type} (m : Tx α) : Prop :=
  Leaves (fun w : Work => w.cell.store.unwitnessed) m

theorem transparency_witnesses (X : Crypto) (op : Operation) (digest : String)
    (seq : Option Nat) (code : Option Code) : Witnesses (transparency X op digest seq code) := by
  intro w r w' h
  obtain ⟨tab, -, hw, -⟩ := transparency_ok h
  simp only [hw, Store.unwitnessed]

theorem save_witnesses (R : Relay) : Witnesses (save R) := by
  intro w u w' h
  simp only [save, bind_ok, chain_ok, setStore_ok, now_ok, require_ok, check_ok] at h
  obtain ⟨c, _, ⟨rfl, rfl⟩, _, _, rfl, t, _, ⟨-, rfl⟩, sig, _, ⟨-, rfl⟩, _, _, rfl, -, rfl⟩ := h
  rfl

theorem auditReject_witnesses (R : Relay) (objects : List Json) (code : Code) :
    Witnesses (auditReject R objects code) :=
  .bind (.each (fun _ => .bind (transparency_witnesses _ _ _ _ _) fun _ => .pure _) _)
    fun _ => save_witnesses R

theorem run_leaves {α γ : Type} {f : Work → γ} {m : Tx α} (hm : Leaves f m) {o : Oracle}
    {x : α} {b : Cell} (h : m.run o st = .ok (x, b)) :
    ∃ w w' : Work, w.cell = st.cell ∧ w'.cell = b ∧ f w' = f w := by
  obtain ⟨w, w', hw, hm', rfl⟩ := run_ok h
  exact ⟨w, w', hw, rfl, hm _ _ _ hm'⟩

theorem auditReject_unwitnessed {R : Relay} {objects : List Json} {code : Code} {o : Oracle}
    {u : Unit} {b : Cell} (h : (auditReject R objects code).run o st = .ok (u, b)) :
    b.store.unwitnessed = st.unwitnessed := by
  obtain ⟨w, w', hw, rfl, he⟩ := run_leaves (auditReject_witnesses R objects code) h
  rw [he, hw]

theorem stepAudit_unwitnessed (R : Relay) (o : Oracle) (call : Call) (e : ApiError) (st : Store) :
    (stepAudit R o call e st).1.unwitnessed = st.unwitnessed := by
  unfold stepAudit
  split
  · rfl
  · split
    · rfl
    · rename_i hrun
      exact auditReject_unwitnessed hrun

theorem stepItemAudit_unwitnessed (R : Relay) (o : Oracle) (faults : Faults) (call : Call)
    (p : Progress) (r : Json) (e : ApiError) (st : Store) :
    (stepItemAudit R o faults call p r e st).1.unwitnessed = st.unwitnessed := by
  unfold stepItemAudit
  split
  · rfl
  · split
    · rfl
    · split
      · rfl
      · rename_i hrun
        exact auditReject_unwitnessed hrun

/-- No request executes on a deleted chain. -/
theorem Commit.live {R : Relay} {call : Call} (h : Commit R (some call) st st') :
    st.deletion = none := by
  cases h with
  | execute hd _ => exact hd
  | item _ hd _ _ _ => exact hd

theorem enrollmentCandidate_live {R : Relay} {q : Query} {v : Json} {o : Oracle} {x : Reply}
    {b : Cell} (h : (enrollmentCandidate R q v).run o st = .ok (x, b)) : st.deletion = none := by
  obtain ⟨w, w', hw, hm, rfl⟩ := run_ok h
  simp only [enrollmentCandidate, bind_ok, lift_ok, look_ok, failIf_ok] at hm
  obtain ⟨_, _, ⟨-, rfl⟩, _, _, ⟨rfl, rfl⟩, _, _, ⟨hdel, rfl⟩, -⟩ := hm
  rw [hw] at hdel
  simpa using hdel

theorem noticeStore_deleted {R : Relay} {o : Oracle} (hd : st.deletion.isSome)
    (h : World.noticeStore R o st = .ok st') : st' = st := by
  unfold World.noticeStore at h
  split at h
  · rename_i hnone _
    rw [hnone] at hd
    cases hd
  · exact (Except.ok.inj h).symm

end Frames

/-! ## Steps on a deleted chain -/

/-- The call whose rejection the event records. -/
def World.auditing (w : World) : Event → Option Call
  | .resume i _ _ => match w.tasks[i]? with
    | some (.audit call _) => some call
    | some (.itemAudit call _ _ _) => some call
    | _ => none
  | _ => none

/-- The event runs the erasing transaction of a completion. -/
def World.erasing (w : World) : Event → Bool
  | .resume i _ _ => match w.tasks[i]? with
    | some (.erase _) => true
    | _ => false
  | _ => false

/-- The event runs the second transaction of a completion. -/
def World.finishing (w : World) : Event → Bool
  | .resume i _ _ => match w.tasks[i]? with
    | some (.finish _) => true
    | _ => false
  | _ => false

section Deleted

variable {X : Crypto} {w : World} {id : String} {ev : Event} {st' : Store}

/-- A step on a deleted chain removes at most, unless it records a rejection;
only a completion writes the deletion. -/
theorem Txn.deleted (h : Txn X w id ev st') (hd : (w.store id).deletion.isSome) :
    Frozen (w.store id) st' ∧
        (st'.deletion = (w.store id).deletion ∨ w.finishing ev = true) ∨
      (∃ call, w.auditing ev = some call ∧ call.chain = id) ∧
        st'.unwitnessed = (w.store id).unwitnessed := by
  have hlive : (w.store id).deletion ≠ none := fun hn => by
    rw [hn] at hd
    cases hd
  have same : ∀ {st'}, st' = w.store id → Frozen (w.store id) st' ∧
      (st'.deletion = (w.store id).deletion ∨ w.finishing ev = true) := fun h =>
    ⟨.of_eq h, .inl (congrArg _ h)⟩
  cases h with
  | kept => exact .inl (same rfl)
  | executed _ _ =>
      obtain he | hc := stepExecute_commit _ _ _ _
      · exact .inl (same he)
      · exact absurd hc.live hlive
  | item _ _ _ =>
      obtain he | hc := stepItem_commit _ _ _ _ _ _ _ _
      · exact .inl (same he)
      · exact absurd hc.live hlive
  | itemAudit ht hid =>
      exact .inr ⟨⟨_, by simp [World.auditing, ht], hid⟩, stepItemAudit_unwitnessed _ _ _ _ _ _ _ _⟩
  | audit ht hid =>
      exact .inr ⟨⟨_, by simp [World.auditing, ht], hid⟩, stepAudit_unwitnessed _ _ _ _ _⟩
  | erased _ =>
      refine .inl ⟨Store.erase_frozen _, .inl ?_⟩
      unfold Store.erase
      split <;> rfl
  | finished ht h => exact .inl ⟨Store.finish_frozen h, .inr (by simp [World.finishing, ht])⟩
  | notice _ h => exact .inl (same (noticeStore_deleted hd h))
  | enrollment _ h => exact absurd (enrollmentCandidate_live h) hlive
  | expired h => exact .inl ⟨(expireStore_frozen h).1, .inl (expireStore_frozen h).2⟩

theorem Txn.drained (h : Txn X w id ev st') (hd : (w.store id).deletion.isSome) :
    Drained (w.store id) st' ∧ st'.deletion.isSome := by
  obtain ⟨hf, -⟩ | ⟨-, hu⟩ := h.deleted hd
  · exact ⟨hf.toDrained, hf.deletion hd⟩
  · have hdel : st'.deletion = (w.store id).deletion := congrArg (·.deletion) hu
    exact ⟨.of_unwitnessed hu, hdel ▸ hd⟩

theorem store_of_erasing {i : Nat} {after : After} (ht : w.tasks[i]? = some (.erase after))
    (o : Oracle) (faults : Faults) :
    (w.step X (.resume i o faults)).store id = (w.store id).erase := by
  have h : (w.mapped fun _ st => st.erase).store id = (w.store id).erase := by
    cases hrow : w.chains.find? id with
    | none =>
        rw [World.store_absent hrow, World.store_absent]
        · rfl
        · exact Table.find?_mapIdx_none
            (f := fun (_ : Nat) (row : String × Store) => (row.1, row.2.erase))
            (fun _ _ => rfl) hrow
    | some row =>
        obtain ⟨k, -, he⟩ := Table.find?_mapIdx_some
          (f := fun (_ : Nat) (row : String × Store) => (row.1, row.2.erase)) (fun _ _ => rfl) hrow
        rw [World.store_of_find? hrow, World.store, he]
        rfl
  show (w.stepTask X i o faults).store id = _
  simp only [World.stepTask, ht, World.stepErase]
  split <;> exact h

/-! ## The deleting transaction -/

/-- The transaction that deletes a chain: its last move is the delete entry. -/
structure Departed (R : Relay) (a b : Cell) : Prop where
  stored : ∃ c, a.store.chain = some c
  moves : ∃ (ops : List Json) (M : Ledger) (digest : String),
    Steps R.crypto (ops.map (.log .admin)) a.ledger M ∧ Witnessed R.crypto .delete digest M b.ledger
  saved : b.store.chain = some b.chain
  pending : ∃ d, b.store.deletion = some d ∧ d.completedAt = .null

theorem delete_moves {R : Relay} {auth : Auth} {v : Json} {w w' : Work} {r : Json}
    (h : delete R auth v w = .ok (r, w')) :
    ∃ (ops : List Json) (M : Ledger) (digest : String),
      Steps R.crypto (ops.map (.log .admin)) w.cell.ledger M ∧
      Witnessed R.crypto .delete digest M w'.cell.ledger := by
  simp only [delete, bind_ok, lift_ok, check_ok, chain_ok, now_ok, attempt_ok, pure_ok] at h
  obtain ⟨_, _, ⟨-, rfl⟩, _, _, ⟨-, rfl⟩, _, w₁, happ, _, _, ⟨rfl, rfl⟩, t, _, ⟨-, rfl⟩, _, w₂,
    htr, _, _, ⟨rfl, rfl⟩, _, _, ⟨-, rfl⟩, _, _, ⟨-, rfl⟩, _, _, ⟨st, hst, rfl⟩, -, rfl⟩ := h
  have hops : Moves R.crypto _ w.cell w₁.cell :=
    collect_moves (.log .admin) (fun _ _ _ _ => append_moves rfl) happ
  obtain ⟨tab, hnoted, hw₂, -⟩ := transparency_ok htr
  have hw : ∃ digest, Witnessed R.crypto .delete digest w₁.cell.ledger w₂.cell.ledger := by
    rw [hw₂]
    exact ⟨_, Operation.noConfusion, ⟨_, hnoted, rfl⟩, rfl, rfl, rfl, rfl, rfl⟩
  obtain ⟨digest, hw⟩ := hw
  split at hst
  · cases hst
  · obtain rfl := Option.some.inj hst
    exact ⟨_, _, digest, hops.steps, hw⟩

theorem executeTx_departs {R : Relay} {call : Call} (hroute : call.route = .delete)
    {w w' : Work} {r : Reply} (h : executeTx R call w = .ok (r, w')) :
    Departed R w.cell w'.cell := by
  obtain ⟨hadm, x, w₁, hwrite, hsave, -⟩ := executeTx_write (by rw [hroute]; rfl)
    (by rw [hroute]; simp) (by rw [hroute]; simp) h
  simp only [writeRoute, hroute, bind_ok, pure_ok] at hwrite
  obtain ⟨_, _, hdel, -, rfl⟩ := hwrite
  obtain ⟨c, hc, -⟩ := hadm.stored
  have hs := save_ok hsave
  obtain ⟨ms, M, digest, hsteps, hw⟩ := delete_moves hdel
  exact ⟨⟨c, hc⟩, ⟨ms, M, digest, hsteps, hs.ledger ▸ hw⟩, hs.stored,
    hs.deletion ▸ (delete_ok hdel).imp fun _ h => ⟨h.1, h.2.1⟩⟩

/-- The transparency chain ends with the delete entry. -/
def Store.Closed (st : Store) : Prop :=
  ∃ c, st.chain = some c ∧
    (∃ row, st.transparency.find? (c.transparencyId, c.transparencyIndex) = some row ∧
      row.entry.operation = .delete) ∧
    ∀ i, c.transparencyIndex < i → st.transparency.find? (c.transparencyId, i) = none

theorem Departed.closed {R : Relay} {a b : Cell} (h : Departed R a b)
    (hs : Sound R.crypto a.ledger) : b.store.Closed := by
  obtain ⟨ms, M, digest, hsteps, hw⟩ := h.moves
  have hb : Sound R.crypto b.ledger := (hs.steps hsteps).steps (.single (.evidence hw))
  obtain ⟨te, hn, hc⟩ := hw.noted
  have hrow : b.chain = M.chain.noted R.crypto te := hc
  have hfind := hn.find? (b.chain.transparencyId, b.chain.transparencyIndex)
  rw [if_pos (by rw [hrow]; rfl)] at hfind
  refine ⟨b.chain, h.saved, ⟨_, hfind, hn.operation⟩, fun i hi => ?_⟩
  have hdom := (hb.evidence.dom i).not.mpr fun hle => Nat.not_lt.mpr hle.2 hi
  simpa using hdom

theorem Store.Closed.of_eq {st st' : Store} (h : st.Closed) (hc : st'.chain = st.chain)
    (ht : st'.transparency = st.transparency) : st'.Closed := by
  obtain ⟨c, hsome, hlast⟩ := h
  exact ⟨c, hc.trans hsome, ht ▸ hlast⟩

/-- Only the deleting mutation writes the deletion. -/
theorem Mutated.deletion {R : Relay} {call : Call} {a b : Cell} (h : Mutated R call a b) :
    b.store.deletion = a.store.deletion ∨
      call.route = .delete ∧ ∃ d, b.store.deletion = some d ∧ d.Keyed := by
  cases h with
  | still h => exact .inl h.deletion
  | enrolled _ h hst => exact .inl (hst.deletion.trans h.moves.deletion)
  | rotated _ h => exact .inl h.unsaved.deletion
  | acknowledged _ h => exact .inl h.moves.deletion
  | snapshotted _ h => exact .inl h.moves.deletion
  | pruned _ _ h => exact .inl (h.second.deletion.trans h.first.deletion)
  | reseeded _ _ h => exact .inl h.unsaved.deletion
  | deleted hr hd _ hk => exact .inr ⟨hr, _, hd, hk⟩

theorem Executed.deletion_or {R : Relay} {call : Call} {a b : Cell} (h : Executed R call a b) :
    b.store.deletion = a.store.deletion ∨
      call.route = .delete ∧ ∃ d, b.store.deletion = some d ∧ d.Keyed := by
  cases h with
  | begun _ h => exact .inl h.deletion
  | repeated _ h => exact .inl h.deletion
  | imported _ _ h =>
      rcases h.row with ⟨-, hs⟩ | ⟨-, hs⟩
      · exact .inl (hs.deletion.trans h.path.unsaved.deletion)
      · exact .inl (hs.deletion.trans h.path.unsaved.deletion)
  | read _ _ h => exact .inl h.deletion
  | mutated _ _ h hs => exact hs.deletion ▸ h.deletion

/-- Only the deleting transaction writes the deletion of a live chain. -/
theorem Executed.deletion {R : Relay} {call : Call} {a b : Cell} (h : Executed R call a b)
    (hroute : call.route ≠ .delete) : b.store.deletion = a.store.deletion :=
  h.deletion_or.resolve_right fun hd => hroute hd.1

theorem ItemMoved.deletion {R : Relay} {call : Call} {index : Nat} {r : Json} {a b : Cell}
    (h : ItemMoved R call index r a b) : b.store.deletion = a.store.deletion := by
  cases h with
  | envelope _ _ hm => exact hm.deletion
  | repair _ _ hm => exact hm.deletion
  | part _ _ hm => exact hm.deletion
  | record _ _ _ _ _ hm => exact hm.deletion

theorem Commit.deletion {R : Relay} {cause : Option Call} {st st' : Store}
    (h : Commit R cause st st') (hd : st.deletion = none)
    (hroute : ∀ call, cause = some call → call.route ≠ .delete) : st'.deletion = none := by
  cases h with
  | execute _ h => exact (h.deletion (hroute _ rfl)).trans hd
  | item _ _ _ h hs => exact hs.deletion.trans (h.deletion.trans hd)
  | evidence _ _ h hs => exact hs.deletion.trans (h.deletion.trans hd)
  | enrollment _ h => exact h.deletion.trans hd
  | expire _ h => exact h.deletion.trans hd
  | erase => rw [erase_still hd]; exact hd
  | finish h =>
      rw [Store.finish, hd] at h
      cases h
      exact hd

/-- A live chain stays live, unless the step executes its deletion. -/
theorem Txn.deletes (h : Txn X w id ev st') (hd : (w.store id).deletion = none) :
    st'.deletion = none ∨ ∃ i o o' faults call v, ev = .resume i o faults ∧
      w.tasks[i]? = some (.start call (.ok v)) ∧ call.route = .delete ∧ call.chain = id ∧
      st' = (stepExecute (w.relay X) o' { call with value := v } (w.store id)).1 := by
  have silent : ∀ {st'}, st' = w.store id ∨ Commit (w.relay X) none (w.store id) st' →
      st'.deletion = none := fun h => by
    obtain rfl | h := h
    · exact hd
    · exact h.deletion hd fun _ hc => by cases hc
  cases h with
  | kept => exact .inl hd
  | @executed i o o' faults call v ht hid =>
      by_cases hroute : call.route = .delete
      · exact .inr ⟨i, o, o', faults, call, v, rfl, ht, hroute, hid, rfl⟩
      · obtain he | hc := stepExecute_commit (w.relay X) o' { call with value := v } (w.store id)
        · rw [he]
          exact .inl hd
        · exact .inl (hc.deletion hd fun c hc => by cases hc; exact hroute)
  | item _ _ _ =>
      obtain he | ⟨mid, b, -, -, -, h, hs, he⟩ := stepItem_ok _ _ _ _ _ _ _ _
      · rw [he]
        exact .inl hd
      · rw [he]
        exact .inl (hs.deletion.trans (h.deletion.trans hd))
  | itemAudit _ _ => exact .inl (silent (stepItemAudit_commit _ _ _ _ _ _ _ _))
  | audit _ _ => exact .inl (silent (stepAudit_commit _ _ _ _ _))
  | erased _ => exact .inl (silent (.inr .erase))
  | finished _ h => exact .inl (silent (.inr (.finish h)))
  | notice _ h => exact .inl (silent (noticeStore_commit h))
  | enrollment _ h => exact .inl (silent (.inr (enrollment_commit h)))
  | expired h => exact .inl (silent (expireStore_commit h))

/-- A live chain stays live, unless its deleting transaction commits. -/
theorem Txn.deleting (h : Txn X w id ev st') (hd : (w.store id).deletion = none) :
    st'.deletion = none ∨ ∃ b, Departed (w.relay X) (w.store id).cell b ∧ st' = b.store := by
  obtain hn | ⟨i, o, o', faults, call, v, -, -, hroute, -, rfl⟩ := h.deletes hd
  · exact .inl hn
  · unfold stepExecute
    rw [hd]
    dsimp only
    split
    · rename_i reply b hrun
      obtain ⟨x, x', hx, hm, rfl⟩ := run_ok hrun
      have hroute' : ({ call with value := v } : Call).route = .delete := hroute
      exact .inr ⟨_, hx ▸ executeTx_departs hroute' hm, rfl⟩
    · exact .inl hd

/-- A completion is the work of a second transaction that found the deletion
pending. -/
theorem Txn.completion (h : Txn X w id ev st') {d : Deletion} (hd : st'.deletion = some d)
    (hdone : d.completedAt.isNull = false) :
    (∃ d, (w.store id).deletion = some d ∧ d.completedAt.isNull = false) ∨
      w.finishing ev = true ∧ (w.store id).pending = true := by
  cases hst : (w.store id).deletion with
  | none =>
      obtain hn | ⟨b, hb, rfl⟩ := h.deleting hst
      · exact absurd (hn.symm.trans hd) (by simp)
      · obtain ⟨d', hd', hp⟩ := hb.pending
        obtain rfl := Option.some.inj (hd'.symm.trans hd)
        rw [hp] at hdone
        cases hdone
  | some d₀ =>
      cases hp : d₀.completedAt.isNull with
      | false => exact .inl ⟨d₀, rfl, hp⟩
      | true =>
          refine .inr ⟨?_, by simp [Store.pending, hst, hp]⟩
          have hsame : st'.deletion ≠ (w.store id).deletion := fun h => by
            rw [h, hst] at hd
            obtain rfl := Option.some.inj hd
            rw [hp] at hdone
            cases hdone
          obtain ⟨-, hkept | hfin⟩ | ⟨-, hu⟩ := h.deleted (by rw [hst]; rfl)
          · exact absurd hkept hsame
          · exact hfin
          · exact absurd (congrArg Store.deletion hu) hsame

end Deleted

/-! ## Completion -/

section Completion

variable {X : Crypto} {cfg : RelayConfig} {id : String} {es : List Event}

theorem after_snoc (X : Crypto) (cfg : RelayConfig) (es : List Event) (ev : Event) :
    World.after X cfg (es ++ [ev]) = (World.after X cfg es).step X ev :=
  run_snoc _ es ev

theorem storeAfter_snoc (X : Crypto) (cfg : RelayConfig) (es : List Event) (ev : Event)
    (id : String) : Txn X (World.after X cfg es) id ev (storeAfter X cfg (es ++ [ev]) id) := by
  rw [storeAfter, after_snoc]
  exact step_txn X (World.after X cfg es) ev id

/-- An erasing transaction of the run found the chain deleted. -/
def Processed (X : Crypto) (cfg : RelayConfig) (es : List Event) (id : String) : Prop :=
  ∃ es₁ ev es₂, es = es₁ ++ ev :: es₂ ∧ (World.after X cfg es₁).erasing ev = true ∧
    (storeAfter X cfg es₁ id).deletion.isSome

theorem Processed.snoc (h : Processed X cfg es id) (ev : Event) :
    Processed X cfg (es ++ [ev]) id := by
  obtain ⟨es₁, ev', es₂, rfl, h⟩ := h
  exact ⟨es₁, ev', es₂ ++ [ev], by simp, h⟩

theorem processed_snoc {ev : Event} (h : Processed X cfg (es ++ [ev]) id) :
    Processed X cfg es id ∨
      (World.after X cfg es).erasing ev = true ∧ (storeAfter X cfg es id).deletion.isSome := by
  obtain ⟨es₁, ev', es₂, he, h⟩ := h
  rcases List.eq_nil_or_concat es₂ with rfl | ⟨es₂, x, rfl⟩
  · obtain ⟨rfl, hev⟩ := List.append_inj' he rfl
    cases hev
    exact .inr h
  · rw [List.concat_eq_append, ← List.cons_append, ← List.append_assoc] at he
    obtain ⟨rfl, -⟩ := List.append_inj' he rfl
    exact .inl ⟨es₁, ev', es₂, rfl, h⟩

/-- The erasing transaction empties the tables of a pending chain. -/
theorem erasing_erases {w : World} {ev : Event} (h : w.erasing ev = true)
    (hp : (w.store id).pending = true) : ((w.step X ev).store id).Erased := by
  cases ev with
  | resume i o faults =>
      simp only [World.erasing] at h
      split at h
      · rename_i after ht
        rw [store_of_erasing ht, Store.erase, if_pos hp]
        exact Store.cleared_erased _
      · cases h
  | request q o | complete | retention o | restart settings t => cases h

/-- A deletion that is marked completed was processed by an erasing
transaction and has no row left, in every run in which the second transaction
of a completion finds pending only such deletions that an erasing transaction
has met before. -/
theorem completed_deletion_erased (X : Crypto) (cfg : RelayConfig) (es : List Event) (id : String)
    (hfinish : ∀ es₁ ev es₂, es = es₁ ++ ev :: es₂ →
      (World.after X cfg es₁).finishing ev = true → (storeAfter X cfg es₁ id).pending = true →
      Processed X cfg es₁ id) {d : Deletion} (hd : (storeAfter X cfg es id).deletion = some d)
    (hdone : d.completedAt.isNull = false) :
    (storeAfter X cfg es id).Erased ∧ Processed X cfg es id := by
  -- processed chains are erased, and completed ones are processed
  have hrun : (Processed X cfg es id → (storeAfter X cfg es id).Erased ∧
      (storeAfter X cfg es id).deletion.isSome) ∧
      ∀ d, (storeAfter X cfg es id).deletion = some d → d.completedAt.isNull = false →
        Processed X cfg es id := by
    clear hd hdone
    induction es using List.reverseRecOn with
    | nil =>
        refine ⟨?_, fun d hd _ => ?_⟩
        · rintro ⟨es₁, ev, es₂, he, -⟩
          simp at he
        · cases hd
    | append_singleton es ev ih =>
        obtain ⟨herased, hdone⟩ := ih fun es₁ ev' es₂ he =>
          hfinish es₁ ev' (es₂ ++ [ev]) (by rw [he]; simp)
        have htxn := storeAfter_snoc X cfg es ev id
        have hcompleted : ∀ d, (storeAfter X cfg (es ++ [ev]) id).deletion = some d →
            d.completedAt.isNull = false → Processed X cfg es id := fun d hd hnull => by
          obtain ⟨d₀, hd₀, hnull₀⟩ | ⟨hfin, hpend⟩ := htxn.completion hd hnull
          · exact hdone d₀ hd₀ hnull₀
          · exact hfinish es ev [] rfl hfin hpend
        refine ⟨fun hp => ?_, fun d hd hnull => (hcompleted d hd hnull).snoc ev⟩
        obtain hp | ⟨hev, hdel⟩ := processed_snoc hp
        · obtain ⟨he, hdel⟩ := herased hp
          obtain ⟨hdr, hdel'⟩ := htxn.drained hdel
          exact ⟨he.drained hdr, hdel'⟩
        · obtain ⟨hdr, hdel'⟩ := htxn.drained hdel
          refine ⟨?_, hdel'⟩
          by_cases hpend : (storeAfter X cfg es id).pending = true
          · rw [storeAfter, after_snoc]
            exact erasing_erases hev hpend
          · obtain ⟨d, hd⟩ := Option.isSome_iff_exists.mp hdel
            have hnull : d.completedAt.isNull = false := by
              simpa [Store.pending, hd] using hpend
            exact (herased (hdone d hd hnull)).1.drained hdr
  have hp := hrun.2 d hd hdone
  exact ⟨(hrun.1 hp).1, hp⟩

end Completion

namespace Sample

/-- The deletion request, up to its second erasing transaction. -/
def deletionStart : List Event := genesisRun ++ perform 1 2 deleteRequest

/-- The deletion request is task 1; it erases and completes on its own. -/
def deletionRest : List Event := [.resume 1 (oracle 1500 6) .none, .resume 1 (oracle 1500 7) .none]

/-- A completion runs its first transaction before the deletion commits and its
second one afterwards. -/
def overtakenRun : List Event :=
  genesisRun ++ [.complete, .resume 1 (oracle 1500 2) .none] ++ perform 2 2 deleteRequest ++
    [.resume 1 (oracle 1500 7) .none]

/-- The run erases before it completes, and records no rejection. -/
theorem deletionRun_facts :
    ((storeAfter crypto cfg deletionStart chainId).deletion.isSome &&
      (World.after crypto cfg deletionStart).erasing (.resume 1 (oracle 1500 6) .none) &&
      stepsAll (World.step crypto) (fun w ev => !w.finishing ev) (.initial cfg)
        (deletionStart ++ [.resume 1 (oracle 1500 6) .none]) &&
      stepsAll (World.step crypto) (fun w ev => (w.auditing ev).isNone) (.initial cfg)
        (deletionStart ++ deletionRest) &&
      (storeAfter crypto cfg (deletionStart ++ deletionRest) chainId).deletion.any fun d =>
        !d.completedAt.isNull) = true := by
  decide +kernel

/-- The only completing transaction is the last one. -/
theorem deletionRun_processed {es₁ : List Event} {ev : Event} {es₂ : List Event}
    (he : deletionStart ++ deletionRest = es₁ ++ ev :: es₂)
    (hfin : (World.after crypto cfg es₁).finishing ev = true) :
    Processed crypto cfg es₁ chainId := by
  have hfacts := deletionRun_facts
  simp only [Bool.and_eq_true] at hfacts
  obtain ⟨⟨⟨⟨hdel, herase⟩, hunfinished⟩, -⟩, -⟩ := hfacts
  have hlast : deletionStart ++ deletionRest =
      (deletionStart ++ [.resume 1 (oracle 1500 6) .none]) ++
        [.resume 1 (oracle 1500 7) .none] := by simp [deletionRest]
  rw [hlast] at he
  rcases List.eq_nil_or_concat es₂ with rfl | ⟨es₂, x, rfl⟩
  · obtain ⟨rfl, -⟩ := List.append_inj' he rfl
    exact ⟨deletionStart, _, [], rfl, herase, hdel⟩
  · rw [List.concat_eq_append, ← List.cons_append, ← List.append_assoc] at he
    obtain ⟨he, -⟩ := List.append_inj' he rfl
    rw [he] at hunfinished
    have hmeet : StepsMeet (World.step crypto) (fun w ev => w.finishing ev = false)
        (World.initial cfg) (es₁ ++ ev :: es₂) :=
      stepsMeet_of_all (fun _ _ h => by simpa using h) hunfinished
    have hnot := (stepsMeet_append.mp hmeet).2.1
    rw [World.after, hnot] at hfin
    cases hfin

end Sample

/-- A deletion that ran to its end, with no row left. -/
theorem completed_deletion_erased_run : (storeAfter Sample.crypto Sample.cfg
    (Sample.deletionStart ++ Sample.deletionRest) Sample.chainId).Erased := by
  have hdone := (Bool.and_eq_true_iff.mp Sample.deletionRun_facts).2
  obtain ⟨d, hd, hnull⟩ := (Option.any_eq_true _ _).mp hdone
  exact (completed_deletion_erased Sample.crypto Sample.cfg _ Sample.chainId
    (fun es₁ ev es₂ he hfin _ => Sample.deletionRun_processed he hfin) hd
    (by simpa using hnull)).1

/-- A deletion that commits between the two transactions of a completion is
marked completed with all its rows in place. -/
theorem completion_overtakes_erasure :
    ∃ d, (storeAfter Sample.crypto Sample.cfg Sample.overtakenRun Sample.chainId).deletion =
        some d ∧ d.completedAt.isNull = false ∧
      ¬ (storeAfter Sample.crypto Sample.cfg Sample.overtakenRun Sample.chainId).Erased := by
  have hrun : ((storeAfter Sample.crypto Sample.cfg Sample.overtakenRun
        Sample.chainId).deletion.any fun d => !d.completedAt.isNull) = true ∧
      ((storeAfter Sample.crypto Sample.cfg Sample.overtakenRun
        Sample.chainId).objects.find? (.device, Sample.uid 1)).isSome = true := by
    decide +kernel
  obtain ⟨hdone, hrow⟩ := hrun
  cases hd : (storeAfter Sample.crypto Sample.cfg Sample.overtakenRun Sample.chainId).deletion with
  | none =>
      rw [hd] at hdone
      cases hdone
  | some d =>
      rw [hd] at hdone
      refine ⟨d, rfl, by simpa using hdone, fun herased => ?_⟩
      rw [herased.objects] at hrow
      cases hrow

/-! ## The end of a chain -/

section Ending

variable {X : Crypto} {cfg : RelayConfig} {id : String}

/-- The step records no rejection on chain `id` once that is deleted. -/
def Quiet (id : String) (w : World) (ev : Event) : Prop :=
  ∀ call, w.auditing ev = some call → call.chain = id → (w.store id).deletion = none

theorem Quiet.frozen {w : World} {ev : Event} {st' : Store} (hq : Quiet id w ev)
    (h : Txn X w id ev st') (hd : (w.store id).deletion.isSome) : Frozen (w.store id) st' := by
  obtain ⟨hf, -⟩ | ⟨⟨call, haud, hid⟩, -⟩ := h.deleted hd
  · exact hf
  · rw [hq call haud hid] at hd
    cases hd

/-- Of the steps of a run, the last one meets the condition as well. -/
theorem stepsMeet_snoc {C : World → Event → Prop} {es : List Event} {ev : Event}
    (h : StepsMeet (World.step X) C (World.initial cfg) (es ++ [ev])) :
    StepsMeet (World.step X) C (World.initial cfg) es ∧ C (World.after X cfg es) ev := by
  obtain ⟨hes, hev⟩ := stepsMeet_append.mp h
  exact ⟨hes, hev.1⟩

theorem closed_after (es : List Event)
    (hquiet : StepsMeet (World.step X) (Quiet id) (World.initial cfg) es)
    (hdel : (storeAfter X cfg es id).deletion.isSome) : (storeAfter X cfg es id).Closed := by
  induction es using List.reverseRecOn with
  | nil => cases hdel
  | append_singleton es ev ih =>
      obtain ⟨hes, hev⟩ := stepsMeet_snoc hquiet
      have htxn := storeAfter_snoc X cfg es ev id
      cases hd : (storeAfter X cfg es id).deletion with
      | some d =>
          have hsome : (storeAfter X cfg es id).deletion.isSome := by rw [hd]; rfl
          have hf := hev.frozen htxn hsome
          exact (ih hes hsome).of_eq hf.chain hf.transparency
      | none =>
          obtain hnone | ⟨b, hb, hst⟩ := htxn.deleting hd
          · rw [hnone] at hdel
            cases hdel
          · obtain ⟨c, hc⟩ := hb.stored
            have hsettled := (store_settled X cfg es id).ledger hd hc
            rw [hst]
            refine hb.closed ?_
            rw [Store.cell_of hc]
            exact hsettled.sound

/-- A deleted chain is frozen, and its delete entry stays the last one, in
every run that records no rejection on it after the deletion. -/
theorem deletion_freezes (X : Crypto) (cfg : RelayConfig) (es es' : List Event) (id : String)
    (hdel : (storeAfter X cfg es id).deletion.isSome)
    (hquiet : StepsMeet (World.step X) (Quiet id) (World.initial cfg) (es ++ es')) :
    Frozen (storeAfter X cfg es id) (storeAfter X cfg (es ++ es') id) ∧
      (storeAfter X cfg (es ++ es') id).Closed := by
  have hfrozen : Frozen (storeAfter X cfg es id) (storeAfter X cfg (es ++ es') id) := by
    induction es' using List.reverseRecOn with
    | nil =>
        rw [List.append_nil]
        exact .refl _
    | append_singleton es' ev ih =>
        rw [← List.append_assoc] at hquiet ⊢
        obtain ⟨hes, hev⟩ := stepsMeet_snoc hquiet
        have hf := ih hes
        exact hf.trans (hev.frozen (storeAfter_snoc X cfg _ ev id) (hf.deletion hdel))
  exact ⟨hfrozen, closed_after _ hquiet (hfrozen.deletion hdel)⟩

theorem Quiet.of_isNone {w : World} {ev : Event} (h : (w.auditing ev).isNone = true) :
    Quiet id w ev := fun call hc => by
  rw [hc] at h
  cases h

end Ending

/-- The chain that was deleted is frozen while the deletion is completed. -/
theorem deletion_freezes_run : (storeAfter Sample.crypto Sample.cfg
    (Sample.deletionStart ++ Sample.deletionRest) Sample.chainId).Closed := by
  have hfacts := Sample.deletionRun_facts
  simp only [Bool.and_eq_true] at hfacts
  obtain ⟨⟨⟨⟨hdel, -⟩, -⟩, hquiet⟩, -⟩ := hfacts
  exact (deletion_freezes Sample.crypto Sample.cfg Sample.deletionStart Sample.deletionRest
    Sample.chainId hdel (stepsMeet_of_all (fun _ _ h => .of_isNone h) hquiet)).2

/-- A rotation is refused; before its rejection is recorded, the deletion
commits; the rejection is recorded after the delete entry. -/
theorem rejection_after_deletion :
    ∃ es es', (storeAfter Sample.crypto Sample.cfg es Sample.chainId).deletion.isSome ∧
      ¬ Frozen (storeAfter Sample.crypto Sample.cfg es Sample.chainId)
        (storeAfter Sample.crypto Sample.cfg (es ++ es') Sample.chainId) ∧
      ¬ AddsNone (storeAfter Sample.crypto Sample.cfg es Sample.chainId).transparency
        (storeAfter Sample.crypto Sample.cfg (es ++ es') Sample.chainId).transparency := by
  have hrun : ∃ es es', ((storeAfter Sample.crypto Sample.cfg es Sample.chainId).deletion.isSome &&
      ((storeAfter Sample.crypto Sample.cfg es Sample.chainId).transparency.find?
        (Sample.uid 10007, 9)).isNone &&
      ((storeAfter Sample.crypto Sample.cfg (es ++ es') Sample.chainId).transparency.find?
        (Sample.uid 10007, 9)).isSome) = true :=
    ⟨Sample.genesisRun ++ [.request Sample.staleRequest (Sample.oracle 1500 2),
      .resume 1 (Sample.oracle 1500 3) .none] ++ Sample.perform 2 2 Sample.deleteRequest,
      [.resume 1 (Sample.oracle 1500 9) .none], by decide +kernel⟩
  obtain ⟨es, es', hfacts⟩ := hrun
  simp only [Bool.and_eq_true, Option.isNone_iff_eq_none] at hfacts
  obtain ⟨⟨hdel, hbefore⟩, hafter⟩ := hfacts
  refine ⟨es, es', hdel, fun hf => ?_, fun hn => ?_⟩
  · rw [hf.transparency, hbefore] at hafter
    cases hafter
  · rw [hn _ hbefore] at hafter
    cases hafter

end PallaSync
