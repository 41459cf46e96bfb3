import PallaSync.Checks
import PallaSync.Sync
import PallaSync.Versions

/-!
# Requests as moves

What each request checks, against which tables, and the moves it makes when
the checks pass.
-/

namespace PallaSync

open Atomic

/-! ## Programs beside the ledger -/

/-- The working copy `a` was written back: `b` is what is stored. -/
structure Saved (a b : Cell) : Prop where
  chain : b.chain = a.chain
  stored : b.store.chain = some b.chain
  ledger : b.ledger = a.ledger
  deletion : b.store.deletion = a.store.deletion

/-- Neither the stored chain row nor the deletion was written. -/
structure Unsaved (a b : Cell) : Prop where
  chain : b.store.chain = a.store.chain
  deletion : b.store.deletion = a.store.deletion

/-- Nothing of the ledger, the chain row or the deletion changed. -/
structure Still (a b : Cell) : Prop where
  ledger : b.ledger = a.ledger
  chain : b.store.chain = a.store.chain
  deletion : b.store.deletion = a.store.deletion

namespace Still

variable {a b d : Cell}

theorem refl (a : Cell) : Still a a := ⟨rfl, rfl, rfl⟩

theorem of_eq (h : b = a) : Still a b := h ▸ .refl a

theorem trans (h : Still a b) (h' : Still b d) : Still a d :=
  ⟨h'.ledger.trans h.ledger, h'.chain.trans h.chain, h'.deletion.trans h.deletion⟩

theorem moves {X : Crypto} (h : Still a b) : Moves X [] a b := .still h.ledger h.chain h.deletion

end Still

theorem save_ok {R : Relay} {w w' : Work} {u : Unit} (h : save R w = .ok (u, w')) :
    Saved w.cell w'.cell := by
  simp only [save, bind_ok, chain_ok, setStore_ok, now_ok, require_ok, check_ok] at h
  obtain ⟨c, _, ⟨rfl, rfl⟩, _, _, rfl, t, _, ⟨-, rfl⟩, sig, _, ⟨-, rfl⟩, _, _, rfl, -, rfl⟩ := h
  exact ⟨rfl, rfl, rfl, rfl⟩

theorem outcome_still {X : Crypto} {scope : OutcomeScope} {id : String}
    {payload response : Json} {w w' : Work} {u : Unit}
    (h : outcome X scope id payload response w = .ok (u, w')) : Still w.cell w'.cell := by
  simp only [outcome, attempt_ok] at h
  obtain ⟨st, hst, rfl⟩ := h
  obtain ⟨tab, -, rfl⟩ := Option.map_eq_some_iff.mp hst
  exact ⟨rfl, rfl, rfl⟩

/-- Evidence moves that are neither acceptances nor the deletion of the chain. -/
def Move.isEvidence : Move → Prop
  | .evidence op _ => op ≠ .accept ∧ op ≠ .delete
  | _ => False

theorem publishNotice_moves {R : Relay} {w w' : Work} {u : Unit}
    (h : publishNotice R w = .ok (u, w')) :
    ∃ ms, (∀ m ∈ ms, m.isEvidence) ∧ Moves R.crypto ms w.cell w'.cell := by
  simp only [publishNotice, bind_ok, look_ok] at h
  obtain ⟨_, _, ⟨rfl, rfl⟩, h⟩ := h
  rcases ite_ok.mp h with ⟨-, h⟩ | ⟨-, h⟩
  · obtain ⟨-, rfl⟩ := pure_ok.mp h
    exact ⟨[], by simp, .refl _⟩
  · simp only [bind_ok, newId_ok, now_ok, setStore_ok] at h
    obtain ⟨id, _, ⟨-, rfl⟩, t, _, ⟨-, rfl⟩, r, w₁, htr, rfl⟩ := h
    have m := transparency_moves (by simp) htr
    exact ⟨_, by simp [Move.isEvidence], m.steps, m.chain, m.deletion⟩

theorem auditReject_moves {R : Relay} {objects : List Json} {code : Code} {w w' : Work}
    {u : Unit} (h : auditReject R objects code w = .ok (u, w')) :
    ∃ b, Moves R.crypto (objects.map fun o => .evidence .reject (R.crypto.objectHash o))
      w.cell b ∧ Saved b w'.cell := by
  simp only [auditReject, bind_ok] at h
  obtain ⟨_, w₁, heach, hsave⟩ := h
  refine ⟨w₁.cell, each_moves _ (fun o w w' h => ?_) heach, save_ok hsave⟩
  simp only [bind_ok, pure_ok] at h
  obtain ⟨_, _, htr, -, rfl⟩ := h
  exact transparency_moves (by simp) htr

/-! ## Reads -/

/-- What a read must not touch. -/
def core (w : Work) : Ledger × Option Chain × Option Deletion :=
  (w.cell.ledger, w.cell.store.chain, w.cell.store.deletion)

theorem Still.of_core {w w' : Work} (h : core w' = core w) : Still w.cell w'.cell := by
  simp only [core, Prod.mk.injEq] at h
  exact ⟨h.1, h.2.1, h.2.2⟩

/-- A program that makes no move and writes no chain row. -/
abbrev Stays {α : Type} (m : Tx α) : Prop := Leaves core m

/-- What a read leaves: everything but the cursors. -/
def Store.uncursored (st : Store) : Store := { st with cursors := .empty }

def seen (w : Work) : Store × Chain := (w.cell.store.uncursored, w.cell.chain)

/-- Rows are only added to the cursors and to the versions of the registry,
which go on telling what became of it; the versions of a deletion stay. -/
structure Store.Accrues (st st' : Store) : Prop where
  cursors : ∀ token row, st.cursors.find? token = some row → st'.cursors.find? token = some row
  versions : st.registryHistory <+: st'.registryHistory
  deletions : st'.deleteVersions = st.deleteVersions
  versioned : st.Versioned → st'.Versioned

theorem Store.Accrues.refl (st : Store) : st.Accrues st :=
  ⟨fun _ _ h => h, List.prefix_refl _, rfl, id⟩

theorem Store.Accrues.of_eq {st st' : Store} (hc : st'.cursors = st.cursors)
    (hv : st'.registryHistory = st.registryHistory)
    (hd : st'.deleteVersions = st.deleteVersions) (hr : st'.registry = st.registry) :
    st.Accrues st' :=
  ⟨fun _ _ h => hc ▸ h, hv ▸ List.prefix_refl _, hd, Store.Versioned.of_eq hv hr⟩

theorem Store.Accrues.trans {st st' st'' : Store} (h : st.Accrues st') (h' : st'.Accrues st'') :
    st.Accrues st'' :=
  ⟨fun token row hrow => h'.cursors token row (h.cursors token row hrow),
    h.versions.trans h'.versions, h'.deletions.trans h.deletions,
    fun hst => h'.versioned (h.versioned hst)⟩

/-- A program that leaves the cell alone. -/
abbrev Silent {α : Type} (m : Tx α) : Prop := Leaves Work.cell m

theorem now_silent : Silent now := fun w t w' h => by
  obtain ⟨-, rfl⟩ := now_ok.mp h
  rfl

theorem newId_silent : Silent newId := fun w id w' h => by
  obtain ⟨-, rfl⟩ := newId_ok.mp h
  rfl

theorem check_silent {α : Type} (f : Store → Chain → Except ApiError α) : Silent (check f) :=
  fun w x w' h => by
    obtain ⟨-, rfl⟩ := check_ok.mp h
    rfl

theorem chain_silent : Silent chain := fun w c w' h => by
  obtain ⟨-, rfl⟩ := chain_ok.mp h
  rfl

theorem look_silent {α : Type} (f : Store → α) : Silent (look f) := fun w x w' h => by
  obtain ⟨-, rfl⟩ := look_ok.mp h
  rfl

theorem Silent.stays {α : Type} {m : Tx α} (h : Silent m) : Stays m := fun w x w' hm => by
  rw [core, core, h w x w' hm]

/-- A frame that keeps what leaves the cell alone, and storing a cursor. -/
structure Browsed (R : Relay) (F : Frame Work) : Prop where
  still : ∀ w w' : Work, w'.cell = w.cell → F.rel w w'
  cursor : ∀ p, Keeps F (cursor R p)

namespace Browsed

variable {R : Relay} {F : Frame Work} {α : Type} (hF : Browsed R F)

include hF

theorem silent {m : Tx α} (h : Silent m) : Keeps F m :=
  fun w x w' hm => hF.still w w' (h w x w' hm)

theorem now : Keeps F now := hF.silent now_silent

theorem check (f : Store → Chain → Except ApiError α) : Keeps F (check f) :=
  hF.silent (check_silent f)

theorem chain : Keeps F chain := hF.silent chain_silent

theorem look (f : Store → α) : Keeps F (look f) := hF.silent (look_silent f)

theorem nextCursor (p : Page) (more : Bool) : Keeps F (nextCursor R p more) :=
  .ite (.bind (hF.cursor p) fun _ => .pure _) (.pure _)

theorem page (resource : Route) (q : Query) (filters : Json) :
    Keeps F (page R resource q filters) := by
  refine .bind (.lift _) fun limit => .bind (.failIf _ _) fun _ => .bind hF.now fun t => ?_
  split
  · exact hF.check _
  · exact .bind (.lift _) fun _ => .bind hF.chain fun _ => .bind (hF.look _) fun _ => .pure _

theorem finish (p : Page) (items : List Json) (more log : Bool) :
    Keeps F (finish R p items more log) :=
  .bind (hF.nextCursor p more) fun _ => .pure _

theorem log (auth : Auth) (route : Route) (q : Query) : Keeps F (log R auth route q) :=
  .bind (.lift _) fun _ => .bind hF.chain fun _ => .bind (.failIf _ _) fun _ =>
    .bind (.failIf _ _) fun _ => .bind (.lift _) fun _ => .bind (hF.page route q _) fun _ =>
    .bind (.failIf _ _) fun _ => .bind (hF.look _) fun _ => .bind (.lift _) fun _ =>
    .bind (.lift _) fun _ => hF.finish _ _ _ _

theorem objects (auth : Auth) (route : Route) (param : String) (q : Query) :
    Keeps F (objects R auth route param q) :=
  .bind (.lift _) fun _ => .bind (.failIf _ _) fun _ => .bind (.lift _) fun _ =>
    .bind (hF.look _) fun _ => .bind (.failIf _ _) fun _ =>
    .bind (hF.page route q _) fun _ => .bind hF.chain fun _ =>
    .bind (hF.look _) fun _ => .bind (.lift _) fun _ => .bind (hF.check _) fun _ =>
    .bind (hF.look _) fun _ => hF.finish _ _ _ _

theorem requests (auth : Auth) (q : Query) : Keeps F (requests R auth q) :=
  .bind (.lift _) fun _ => .bind (hF.page _ q _) fun _ => .bind hF.chain fun _ =>
    .bind (hF.look _) fun _ => .bind (hF.nextCursor _ _) fun _ => .pure _

theorem transparencyRange (q : Query) : Keeps F (transparencyRange R q) := by
  refine .bind (.lift _) fun _ => .bind (.require _ _) fun _ => .bind (.failIf _ _) fun _ =>
    .bind hF.chain fun _ => .bind (.failIf _ _) fun _ => .bind (.lift _) fun _ =>
    .bind (.lift _) fun _ => .bind (hF.page _ q _) fun p => .ite ?_ ?_
  · exact .bind (.pure _) fun _ => .bind (hF.check _) fun _ => .bind (hF.look _) fun _ =>
      .bind (.failIf _ _) fun _ => .bind (hF.nextCursor _ _) fun _ => .pure _
  · exact .bind (hF.check _) fun _ => .bind (hF.check _) fun _ =>
      .bind (hF.look _) fun _ => .bind (.failIf _ _) fun _ =>
      .bind (hF.nextCursor _ _) fun _ => .pure _

theorem exportChain (auth : Auth) (q : Query) : Keeps F (exportChain R auth q) := by
  refine .bind (.lift _) fun _ => .bind (.lift _) fun _ => .bind (.failIf _ _) fun _ =>
    .bind (hF.page _ q _) fun p => .bind hF.chain fun _ => .bind (.failIf _ _) fun _ =>
    .bind (hF.look _) fun _ => .ite ?_ ?_
  · exact .bind (.pure _) fun _ => .bind (hF.check _) fun _ =>
      .bind (hF.nextCursor _ _) fun _ => .bind (.failIf _ _) fun _ => .pure _
  · exact .bind (.require _ _) fun _ => .bind (.pure _) fun _ => .bind (hF.check _) fun _ =>
      .bind (hF.nextCursor _ _) fun _ => .bind (.failIf _ _) fun _ => .pure _

theorem readRoute (call : Call) : Keeps F (readRoute R call) := by
  unfold PallaSync.readRoute
  split
  · exact .bind hF.chain fun _ => .bind hF.now fun _ => hF.look _
  · exact .bind hF.chain fun _ => .pure _
  · exact .bind hF.chain fun _ => .bind hF.now fun _ => hF.look _
  · exact hF.objects _ _ _ _
  · exact hF.objects _ _ _ _
  · exact hF.objects _ _ _ _
  · exact hF.objects _ _ _ _
  · exact hF.log _ _ _
  · exact hF.log _ _ _
  · exact hF.check _
  · exact hF.check _
  · exact hF.check _
  · exact .bind (hF.look _) fun _ => .bind (.require _ _) fun _ => .pure _
  · exact .bind hF.chain fun _ => .bind (hF.look _) fun _ => .bind (.require _ _) fun _ =>
      .pure _
  · exact hF.transparencyRange _
  · exact hF.check _
  · exact hF.requests _ _
  · exact .throw _

end Browsed

/-- What a read does: nothing but adding cursors. -/
def readFrame : Frame Work where
  rel w w' := seen w' = seen w ∧ w.cell.store.Accrues w'.cell.store
  refl w := ⟨rfl, .refl w.cell.store⟩
  trans h h' := ⟨h'.1.trans h.1, h.2.trans h'.2⟩

/-- A program that at most adds cursors. -/
abbrev Reads {α : Type} (m : Tx α) : Prop := Keeps readFrame m

theorem core_of_seen {w w' : Work} (h : seen w' = seen w) : core w' = core w := by
  simp only [seen, Store.uncursored, Prod.mk.injEq, Store.mk.injEq] at h
  simp only [core, Cell.ledger, Store.ledger, h]

theorem Reads.stays {α : Type} {m : Tx α} (h : Reads m) : Stays m :=
  fun w x w' hm => core_of_seen (h w x w' hm).1

theorem Silent.reads {α : Type} {m : Tx α} (h : Silent m) : Reads m := fun w x w' hm => by
  have hcell := h w x w' hm
  exact ⟨by rw [seen, seen, hcell], hcell ▸ .refl _⟩

theorem cursor_reads (R : Relay) (p : Page) : Reads (cursor R p) := by
  refine .bind newId_silent.reads fun left => .bind newId_silent.reads fun right =>
    .bind ?_ fun _ => .bind (check_silent _).reads fun _ => .pure _
  intro w u w' h
  obtain ⟨st, hst, rfl⟩ := attempt_ok.mp h
  obtain ⟨tab, htab, rfl⟩ := Option.map_eq_some_iff.mp hst
  refine ⟨rfl, fun token row hrow => ?_, List.prefix_refl _, rfl, Store.Versioned.of_eq rfl rfl⟩
  exact Table.find?_of_find?_insert (Table.find?_insert? htab) (Table.find?_insert?_free htab) hrow

theorem readFrame_browsed (R : Relay) : Browsed R readFrame where
  still w w' h := ⟨by rw [seen, seen, h], h ▸ .refl _⟩
  cursor := cursor_reads R

theorem readRoute_reads (R : Relay) (call : Call) : Reads (readRoute R call) :=
  (readFrame_browsed R).readRoute call

theorem exportChain_reads (R : Relay) (auth : Auth) (q : Query) :
    Reads (exportChain R auth q) :=
  (readFrame_browsed R).exportChain auth q

/-! ## Expiry and handoff -/

/-- Removing bodies leaves the keys of the rows. -/
theorem find?_blankBodies {tab : Table ObjectRow ObjectRow.key} {p : ObjectRow → Bool}
    (q : Kind × String) :
    (tab.update p (fun r => { r with body := none }) fun _ => rfl).find? q =
      (tab.find? q).map fun r => if p r then { r with body := none } else r :=
  Table.find?_update _

theorem find?_blankEntries {tab : Table LogRow LogRow.key} {p : LogRow → Bool}
    (q : String × Nat) :
    (tab.update p (fun r => { r with entry := none }) fun _ => rfl).find? q =
      (tab.find? q).map fun r => if p r then { r with entry := none } else r :=
  Table.find?_update _

theorem expireEpoch_step {X : Crypto} {st : Store} {c : Chain} {epoch : Nat}
    (hrow : (st.handoffs.find? epoch).isSome) :
    Step X (.expire epoch) (st.ledger c) ((st.expireEpoch c epoch).ledger c) := by
  refine .expire hrow ⟨find?_blankBodies, find?_blankEntries, rfl, rfl, rfl⟩
    (fun e => ?_) rfl
  simp only [Store.ledger_handoffs, Store.expireEpoch, Table.find?_update, beq_iff_eq]

/-- The loop of `expire`: the chain row is the one it started with, and an
epoch to come has its handoff still. -/
theorem expire_loop {X : Crypto} {c : Chain} {epochs : List Nat} {w w' : Work}
    (hc : w.cell.chain = c)
    (hrows : ∀ e ∈ epochs, (w.cell.store.handoffs.find? e).isSome)
    (h : each (fun epoch => setStore (·.expireEpoch c epoch)) epochs w = .ok ((), w')) :
    Moves X (epochs.map .expire) w.cell w'.cell := by
  induction epochs generalizing w with
  | nil =>
      rw [each_nil_ok] at h
      exact h ▸ .refl _
  | cons e es ih =>
      simp only [each_cons_ok, setStore_ok] at h
      obtain ⟨_, rfl, h⟩ := h
      have hstep : Moves X [.expire e] w.cell
          { w.cell with store := w.cell.store.expireEpoch c e } :=
        ⟨.single (hc ▸ expireEpoch_step (hrows e List.mem_cons_self)), rfl, rfl⟩
      refine hstep.cons (ih (by exact hc) (fun x hx => ?_) h)
      simp only [Store.expireEpoch, Table.find?_update, Option.isSome_map]
      exact hrows x (List.mem_cons_of_mem _ hx)

theorem mem_due {st : Store} {t e : Nat} (h : e ∈ st.due t) : (st.handoffs.find? e).isSome := by
  obtain ⟨r, hr, rfl⟩ := List.mem_map.mp h
  exact Table.find?_isSome.mpr ⟨r, (Table.mem_select.mp hr).1, rfl⟩

theorem expire_moves {X : Crypto} {w w' : Work} (h : expire w = .ok ((), w')) :
    ∃ t, Moves X ((w.cell.store.due t).map .expire) w.cell w'.cell := by
  simp only [expire, bind_ok, chain_ok, now_ok, look_ok] at h
  obtain ⟨_, _, ⟨rfl, rfl⟩, t, _, ⟨-, rfl⟩, _, _, ⟨rfl, rfl⟩, h⟩ := h
  exact ⟨t, expire_loop (w := { w with tick := w.tick + 1 }) rfl (fun _ => mem_due) h⟩

/-- What a handoff row written at a prune through `through` says. -/
structure HandedOff (st : Store) (c : Chain) (comp : Json) (through : Nat) (row : HandoffRow) :
    Prop where
  older : ∃ epoch ∈ olderEpochs st c, row.epoch = n epoch "epoch"
  compactionId : row.compactionId = s comp "compaction_id"
  pending : row.expired = false
  policy : s c.policy "epoch_retention" ≠ "retain"
  early : st.objects.rows.any (lateEnvelope c row.epoch through) = false

theorem handoffEpoch_ok {comp epoch : Json} {through : Nat} {w w' : Work}
    (h : handoffEpoch comp through epoch w = .ok ((), w')) :
    (w'.cell = w.cell) ∨
    ∃ row : HandoffRow, row.epoch = n epoch "epoch" ∧ row.compactionId = s comp "compaction_id" ∧
      row.expired = false ∧
      w.cell.store.objects.rows.any (lateEnvelope w.cell.chain row.epoch through) = false ∧
      w'.cell = { w.cell with
        store := { w.cell.store with handoffs := w.cell.store.handoffs.insertIgnore row } } := by
  simp only [handoffEpoch, bind_ok, chain_ok, look_ok] at h
  obtain ⟨c, _, ⟨rfl, rfl⟩, late, _, ⟨rfl, rfl⟩, h⟩ := h
  rcases ite_ok.mp h with ⟨-, h⟩ | ⟨hlate, h⟩
  · obtain ⟨-, rfl⟩ := pure_ok.mp h
    exact .inl rfl
  · simp only [bind_ok, look_ok, failIf_ok, require_ok, now_ok, setStore_ok] at h
    obtain ⟨_, _, ⟨-, rfl⟩, _, _, ⟨-, rfl⟩, _, _, ⟨-, rfl⟩, _, _, ⟨-, rfl⟩, t, _, ⟨-, rfl⟩,
      rfl⟩ := h
    exact .inr ⟨_, rfl, rfl, rfl, by simpa using hlate, rfl⟩

/-- The loop of `handoff`: rows for some of the epochs, nothing else. -/
theorem handoff_loop {X : Crypto} {st : Store} {c : Chain} {comp : Json} {through : Nat}
    {epochs : List Json} {w w' : Work} (hc : w.cell.chain = c)
    (hpolicy : s c.policy "epoch_retention" ≠ "retain")
    (ho : w.cell.store.objects = st.objects) (hsub : ∀ e ∈ epochs, e ∈ olderEpochs st c)
    (h : each (handoffEpoch comp through) epochs w = .ok ((), w')) :
    ∃ rows : List HandoffRow, (∀ row ∈ rows, HandedOff st c comp through row) ∧
      Moves X (rows.map .handoff) w.cell w'.cell := by
  induction epochs generalizing w with
  | nil =>
      rw [each_nil_ok] at h
      exact ⟨[], by simp, h ▸ .refl _⟩
  | cons e es ih =>
      obtain ⟨w₁, h₁, h₂⟩ := each_cons_ok.mp h
      have hes : ∀ x ∈ es, x ∈ olderEpochs st c := fun x hx => hsub x (List.mem_cons_of_mem _ hx)
      obtain hw | ⟨row, hepoch, hid, hexp, hlate, hw⟩ := handoffEpoch_ok h₁
      · obtain ⟨rows, hrows, m⟩ := ih (hw ▸ hc) (hw ▸ ho) hes h₂
        exact ⟨rows, hrows, hw ▸ m⟩
      · obtain ⟨rows, hrows, m⟩ := ih (hw ▸ hc) (by rw [hw]; exact ho) hes h₂
        refine ⟨row :: rows, ?_, ?_⟩
        · refine List.forall_mem_cons.mpr ⟨⟨⟨e, hsub e List.mem_cons_self, hepoch⟩, hid, hexp,
            hpolicy, ?_⟩, hrows⟩
          rwa [hc, ho] at hlate
        · have hstep : Moves X [.handoff row] w.cell w₁.cell := by
            rw [hw]
            exact ⟨.single (.handoff (Table.find?_insertIgnore _ row) rfl), rfl, rfl⟩
          exact hstep.cons m

theorem handoff_moves {X : Crypto} {comp : Json} {through : Nat} {w w' : Work}
    (h : handoff comp through w = .ok ((), w')) :
    ∃ (rows : List HandoffRow) (expired : List Nat),
      (∀ row ∈ rows, HandedOff w.cell.store w.cell.chain comp through row) ∧
      Moves X (rows.map .handoff ++ expired.map .expire) w.cell w'.cell := by
  simp only [handoff, bind_ok, chain_ok] at h
  obtain ⟨c, _, ⟨rfl, rfl⟩, h⟩ := h
  rcases ite_ok.mp h with ⟨-, h⟩ | ⟨hpolicy, h⟩
  · obtain ⟨-, rfl⟩ := pure_ok.mp h
    exact ⟨[], [], by simp, .refl _⟩
  · simp only [bind_ok, look_ok] at h
    obtain ⟨_, _, ⟨rfl, rfl⟩, _, w₁, h₁, h₂⟩ := h
    obtain ⟨rows, hrows, m⟩ := handoff_loop (X := X) rfl hpolicy rfl (fun _ he => he) h₁
    obtain ⟨t, m'⟩ := expire_moves (X := X) h₂
    exact ⟨rows, _, hrows, m.append m'⟩

/-! ## Snapshots and pruning -/

/-- A snapshot request that was not made before. -/
structure Snapshotted (R : Relay) (v : Json) (a b : Cell) : Prop where
  checked : compaction R.crypto a.store a.chain (v.get "compaction") [] = .ok ()
  moves : Moves R.crypto [.log .compaction (v.get "compaction")] a b

theorem snapshot_ok {R : Relay} {v : Json} {w w' : Work} {r : Nat × Json}
    (h : snapshot R v w = .ok (r, w')) : w'.cell = w.cell ∨ Snapshotted R v w.cell w'.cell := by
  simp only [snapshot, bind_ok, lift_ok, check_ok] at h
  obtain ⟨_, _, ⟨-, rfl⟩, _, _, ⟨-, rfl⟩, before, _, ⟨-, rfl⟩, h⟩ := h
  cases before with
  | some response =>
      obtain ⟨-, rfl⟩ := pure_ok.mp h
      exact .inl rfl
  | none =>
      simp only [bind_ok, check_ok, pure_ok] at h
      obtain ⟨_, _, ⟨hcheck, rfl⟩, r₁, w₁, happ, _, w₂, hout, -, rfl⟩ := h
      exact .inr ⟨hcheck, (append_moves rfl happ).append (outcome_still hout).moves⟩

/-- A prune that was not made before. Its handoffs are judged by the state
`M` right after the records were removed. -/
structure Pruned (R : Relay) (v comp : Json) (rows : List HandoffRow) (expired : List Nat)
    (a mid b : Cell) : Prop where
  checked : pruneCheck R.crypto a.store a.chain v = .ok comp
  first : Moves R.crypto [.log .admin (v.get "admin_operation"),
    .prune (n v "through_seq") (s comp "compaction_id")] a mid
  handedOff : ∀ row ∈ rows, HandedOff mid.store mid.chain comp (n v "through_seq") row
  second : Moves R.crypto (rows.map .handoff ++ expired.map .expire ++
    [.evidence .prune (R.crypto.objectHash (target v ["compaction_id", "through_seq"]))]) mid b

theorem pruneRecords_step {X : Crypto} {st : Store} {c : Chain} {through : Nat} {cid : String}
    (hmin : c.minAvailableSeq ≤ through + 1) (hhead : through ≤ c.headSeq) :
    Step X (.prune through cid) (st.ledger c) ((st.pruneRecords c.logId through).ledger
      { c with minAvailableSeq := through + 1, boundaryCompactionId := some cid }) :=
  .prune ⟨find?_blankBodies, find?_blankEntries, rfl, rfl, rfl⟩ hmin hhead rfl rfl

theorem prune_ok {R : Relay} {auth : Auth} {v : Json} {w w' : Work} {r : Json}
    (h : prune R auth v w = .ok (r, w')) :
    w'.cell = w.cell ∨
    ∃ comp rows expired mid, auth.requireAdmin = .ok () ∧
      Pruned R v comp rows expired w.cell mid w'.cell := by
  simp only [prune, bind_ok, lift_ok, check_ok] at h
  obtain ⟨_, _, ⟨hadmin, rfl⟩, _, _, ⟨-, rfl⟩, before, _, ⟨-, rfl⟩, h⟩ := h
  cases before with
  | some response =>
      obtain ⟨-, rfl⟩ := pure_ok.mp h
      exact .inl rfl
  | none =>
      simp only [bind_ok, check_ok, chain_ok, setStore_ok, setChain_ok, pure_ok] at h
      obtain ⟨comp, _, ⟨hcheck, rfl⟩, r₁, w₁, happ, _, _, ⟨rfl, rfl⟩, _, _, rfl, _, w₂, rfl, _,
        w₃, hhand, r₂, w₄, htr, _, w₅, hout, -, rfl⟩ := h
      obtain ⟨hl, hc, hd⟩ := append_ok happ
      obtain ⟨-, hmin, hhead⟩ := hl.chain_keeps
      have hok := pruneCheck_ok hcheck
      have hcov := hok.compaction.covered_le
      have m₁ : Moves R.crypto [.log .admin (v.get "admin_operation")] w.cell w₁.cell :=
        append_moves rfl happ
      have m₂ : Moves R.crypto [.prune (n v "through_seq") (s comp "compaction_id")] w₁.cell
          ⟨w₁.cell.store.pruneRecords w₁.cell.chain.logId (n v "through_seq"),
            { w₁.cell.chain with
              minAvailableSeq := n v "through_seq" + 1
              boundaryCompactionId := some (s comp "compaction_id") }⟩ :=
        ⟨.single (pruneRecords_step (hmin.le.trans hok.min_le)
          (hok.through_le.trans (hcov.trans hhead))), rfl, rfl⟩
      obtain ⟨rows, expired, hrows, m₃⟩ := handoff_moves (X := R.crypto) hhand
      have m₄ := transparency_moves (by simp) htr
      have m₅ := (outcome_still hout).moves (X := R.crypto)
      refine .inr ⟨comp, rows, expired, _, hadmin, hcheck, m₁.append m₂, hrows, ?_⟩
      simpa using m₃.append (m₄.append m₅)

/-! ## Acknowledgement -/

structure Acknowledged (R : Relay) (auth : Auth) (id : String) (v : Json) (a b : Cell) :
    Prop where
  own : auth.device = some id
  epochHash : s v "epoch_hash" = a.chain.epochHash R.crypto
  delivered : hasEnvelope a.store id (n a.chain.epoch "epoch") = true
  moves : Moves R.crypto [.activate id] a b

theorem ack_ok {R : Relay} {auth : Auth} {id : String} {v : Json} {w w' : Work} {r : Json}
    (h : ack R auth id v w = .ok (r, w')) : Acknowledged R auth id v w.cell w'.cell := by
  simp only [ack, bind_ok, lift_ok, failIf_ok, chain_ok, look_ok, pure_ok] at h
  obtain ⟨_, _, ⟨-, rfl⟩, _, _, ⟨hown, rfl⟩, _, _, ⟨rfl, rfl⟩, _, _, ⟨hepoch, rfl⟩, _, _,
    ⟨rfl, rfl⟩, _, _, ⟨henv, rfl⟩, _, w₁, hact, -, rfl⟩ := h
  simp only [Bool.or_eq_false_iff, Bool.not_eq_false', Auth.owns,
    bne_eq_false_iff_eq] at hown hepoch
  refine ⟨?_, hepoch.1, by simpa using henv, activate_moves hact⟩
  simpa [hown.1] using hown.2

/-! ## Enrollment -/

/-- An enrollment that was not made before. -/
structure Enrolled (R : Relay) (auth : Auth) (v : Json) (request : Option Json) (a b : Cell) :
    Prop where
  checked : enrollCheck R a.store a.chain auth v request = .ok ()
  moves : Moves R.crypto (.enlist .pendingKeys (v.get "device_record") ::
    (PallaSync.a v "envelopes").map (.log .envelope) ++
    (if auth.admin then [v.get "admin_operation"] else []).map (.log .admin)) a b

theorem enroll_ok {R : Relay} {auth : Auth} {v : Json} {request : Option Json} {w w' : Work}
    {r : Nat × Json} (h : enroll R auth v request w = .ok (r, w')) :
    w'.cell = w.cell ∨ Enrolled R auth v request w.cell w'.cell := by
  simp only [enroll, bind_ok, lift_ok, check_ok] at h
  obtain ⟨_, _, ⟨-, rfl⟩, _, _, ⟨-, rfl⟩, _, _, ⟨-, rfl⟩, _, _, ⟨-, rfl⟩, before, _, ⟨-, rfl⟩,
    h⟩ := h
  cases before with
  | some response =>
      obtain ⟨-, rfl⟩ := pure_ok.mp h
      exact .inl rfl
  | none =>
      simp only [bind_ok, check_ok, pure_ok] at h
      obtain ⟨_, _, ⟨hcheck, rfl⟩, r₁, w₁, h₁, es, w₂, h₂, as, w₃, h₃, _, w₄, hout, -, rfl⟩ := h
      have m₁ : Moves R.crypto _ w.cell w₁.cell := enlist_moves h₁
      have m₂ : Moves R.crypto _ w₁.cell w₂.cell :=
        collect_moves (.log .envelope) (fun _ _ _ _ => append_moves rfl) h₂
      have m₃ : Moves R.crypto _ w₂.cell w₃.cell :=
        collect_moves (.log .admin) (fun _ _ _ _ => append_moves rfl) h₃
      have m₄ := (outcome_still hout).moves (X := R.crypto)
      refine .inr ⟨hcheck, ?_⟩
      simpa using m₁.append (m₂.append (m₃.append m₄))

theorem outcome_stays (X : Crypto) (scope : OutcomeScope) (id : String)
    (payload response : Json) : Stays (outcome X scope id payload response) := by
  intro w u w' h
  have ho := outcome_still h
  simp only [core, ho.ledger, ho.chain, ho.deletion]

theorem insertOffer_stays (row : OfferRow) : Stays (attempt (·.insertOffer row)) := by
  intro w u w' h
  obtain ⟨st, hst, rfl⟩ := attempt_ok.mp h
  obtain ⟨tab, -, rfl⟩ := Option.map_eq_some_iff.mp hst
  rfl

theorem offer_stays (R : Relay) (auth : Auth) (v : Json) : Stays (offer R auth v) := by
  refine .bind (.lift _) fun _ => .bind (.failIf _ _) fun _ => .bind chain_silent.stays fun _ =>
    .bind (.failIf _ _) fun _ => .bind (check_silent _).stays fun before => ?_
  cases before with
  | some response => exact .pure _
  | none =>
      exact .bind now_silent.stays fun _ => .bind (.failIf _ _) fun _ =>
        .bind now_silent.stays fun _ => .bind (.failIf _ _) fun _ =>
        .bind (insertOffer_stays _) fun _ => .bind (outcome_stays _ _ _ _ _) fun _ => .pure _

theorem updateOffer_stays (id : String) (f : OfferRow → OfferRow)
    (hf : ∀ r, (f r).requestId = r.requestId) : Stays (setStore (·.updateOffer id f hf)) := by
  intro w u w' h
  obtain rfl := setStore_ok.mp h
  rfl

theorem enrollmentRequest_stays (R : Relay) (v : Json) : Stays (enrollmentRequest R v) := by
  refine .bind (.lift _) fun _ => .bind chain_silent.stays fun _ =>
    .bind (look_silent _).stays fun _ => .bind (.require _ _) fun row =>
    .bind (.failIf _ _) fun _ => .bind now_silent.stays fun _ => .bind (.failIf _ _) fun _ =>
      .bind now_silent.stays fun _ =>
    .bind (.failIf _ _) fun _ => .bind now_silent.stays fun _ => .bind (.failIf _ _) fun _ =>
    .bind (.failIf _ _) fun _ => .bind (check_silent _).stays fun _ => .bind (.lift _) fun _ => ?_
  cases row.request with
  | some old => exact .bind (.failIf _ _) fun _ => .pure _
  | none => exact .bind (updateOffer_stays _ _ _) fun _ => .pure _

/-- An approved request is an enrollment on its terms; a rejected one only
closes its offer. -/
theorem approve_ok {R : Relay} {auth : Auth} {id : String} {v : Json} {reject : Bool}
    {w w' : Work} {r : Nat × Json} (h : approve R auth id v reject w = .ok (r, w')) :
    Still w.cell w'.cell ∨
    reject = false ∧ ∃ request mid, Enrolled R auth v (some request) w.cell mid ∧
      Still mid w'.cell := by
  simp only [approve, bind_ok, look_ok, require_ok, failIf_ok, check_ok] at h
  obtain ⟨_, _, ⟨rfl, rfl⟩, row, _, ⟨-, rfl⟩, request, _, ⟨-, rfl⟩, _, _, ⟨-, rfl⟩, before, _,
    ⟨-, rfl⟩, h⟩ := h
  cases before with
  | some response =>
      obtain ⟨-, rfl⟩ := pure_ok.mp h
      exact .inl (.refl _)
  | none =>
      simp only [bind_ok, now_ok, failIf_ok, chain_ok] at h
      obtain ⟨_, _, ⟨-, rfl⟩, _, _, ⟨-, rfl⟩, _, _, ⟨rfl, rfl⟩, _, _, ⟨-, rfl⟩, h⟩ := h
      rcases ite_ok.mp h with ⟨hr, h⟩ | ⟨hr, h⟩
      · simp only [bind_ok, lift_ok, chain_ok, setStore_ok, pure_ok] at h
        obtain ⟨_, _, ⟨-, rfl⟩, _, _, ⟨rfl, rfl⟩, _, _, rfl, _, w₁, hout, -, rfl⟩ := h
        have ho := outcome_still hout
        exact .inl ⟨ho.ledger, ho.chain, ho.deletion⟩
      · simp only [bind_ok, chain_ok, setStore_ok, pure_ok] at h
        obtain ⟨_, w₁, henroll, _, _, ⟨rfl, rfl⟩, _, _, rfl, _, w₂, hout, -, rfl⟩ := h
        have ho := outcome_still hout
        have hrest : Still w₁.cell w₂.cell := ⟨ho.ledger, ho.chain, ho.deletion⟩
        obtain hcell | henr := enroll_ok henroll
        · exact .inl (.trans (.of_eq hcell) hrest)
        · exact .inr ⟨by simpa using hr, request, _, henr, hrest⟩

/-! ## Epochs -/

/-- The commit an epoch request asks for. -/
def epochCommit (v : Json) : EpochCommit where
  epoch := v.get "epoch"
  envelopes := a v "envelopes"
  staged := a v "device_records"
  admin := if (v.get "admin_operation").isNull then none else some (v.get "admin_operation")
  genesis := false

/-- An epoch that was not committed before. -/
structure Rotated (R : Relay) (auth : Auth) (v : Json) (targetDevice : Option String)
    (a b : Cell) : Prop where
  checked : epochCheck R a.store a.chain auth v targetDevice = .ok ()
  committed : ∃ M M' entry r,
    Committed R.crypto (epochCommit v) a.ledger M M' b.ledger entry r
  unsaved : Unsaved a b

theorem epoch_ok {R : Relay} {auth : Auth} {v : Json} {targetDevice : Option String}
    {w w' : Work} {r : Nat × Json} (h : epoch R auth v targetDevice w = .ok (r, w')) :
    w'.cell = w.cell ∨ Rotated R auth v targetDevice w.cell w'.cell := by
  simp only [epoch, bind_ok, lift_ok, check_ok] at h
  obtain ⟨_, _, ⟨-, rfl⟩, _, _, ⟨-, rfl⟩, before, _, ⟨-, rfl⟩, h⟩ := h
  cases before with
  | some response =>
      obtain ⟨-, rfl⟩ := pure_ok.mp h
      exact .inl rfl
  | none =>
      simp only [bind_ok, check_ok, pure_ok] at h
      obtain ⟨_, _, ⟨hcheck, rfl⟩, ⟨entry, rs⟩, w₁, hcommit, _, w₂, hout, -, rfl⟩ := h
      obtain ⟨⟨M, M', rr, hc⟩, hrow, hdel⟩ := commitEpoch_ok hcommit
      have ho := outcome_still hout
      exact .inr ⟨hcheck, ⟨M, M', entry, rr, ho.ledger ▸ hc⟩, ho.chain.trans hrow,
        ho.deletion.trans hdel⟩

/-! ## Genesis -/

def genesisCommit (v : Json) : EpochCommit where
  epoch := v.get "epoch"
  envelopes := a v "envelopes"
  staged := [v.get "device_record"]
  admin := none
  genesis := true

/-- A genesis that was not made before, on the chain row `c`. -/
structure Begun (R : Relay) (v : Json) (c : Chain) (a b : Cell) : Prop where
  absent : a.store.chain = none
  chain : ∃ logId tid notice,
    c = Chain.new R.crypto (v.get "parameters") (v.get "epoch") logId tid notice
  generation : n (v.get "parameters") "generation" = 0
  checked : genesisCheck R.crypto a.store c v = .ok ()
  moves : ∃ M₀ M M' M₁ entry r ms,
    Steps R.crypto [.log .parameters (v.get "parameters")] (a.store.ledger c) M₀ ∧
    Committed R.crypto (genesisCommit v) M₀ M M' M₁ entry r ∧
    (∀ m ∈ ms, m.isEvidence) ∧ Steps R.crypto ms M₁ b.ledger
  stored : b.store.chain = some b.chain
  deletion : b.store.deletion = a.store.deletion

theorem genesis_ok {R : Relay} {v : Json} {w w' : Work} {r : Nat × Json}
    (h : genesis R v w = .ok (r, w')) :
    w'.cell = w.cell ∨ ∃ c, Begun R v c w.cell w'.cell := by
  simp only [genesis, bind_ok, lift_ok, check_ok] at h
  obtain ⟨_, _, ⟨-, rfl⟩, _, _, ⟨-, rfl⟩, _, _, ⟨-, rfl⟩, before, _, ⟨-, rfl⟩, h⟩ := h
  cases before with
  | some response =>
      obtain ⟨-, rfl⟩ := pure_ok.mp h
      exact .inl rfl
  | none =>
      simp only [bind_ok, look_ok, failIf_ok, newId_ok, setChain_ok, check_ok, chain_ok,
        pure_ok, Option.isSome_eq_false_iff, Option.isNone_iff_eq_none, bne_eq_false_iff_eq] at h
      obtain ⟨_, _, ⟨rfl, rfl⟩, _, _, ⟨hnone, rfl⟩, _, _, ⟨hgen, rfl⟩, _, _, ⟨-, rfl⟩, logId, _,
        ⟨-, rfl⟩, tid, _, ⟨-, rfl⟩, notice, _, ⟨-, rfl⟩, _, _, rfl, _, _, ⟨hcheck, rfl⟩, r₁, w₁,
        happ, ⟨entry, rs⟩, w₂, hcommit, _, _, ⟨rfl, rfl⟩, _, w₃, hnotice, _, w₄, hout, _, w₅,
        hsave, -, rfl⟩ := h
      have m₁ : Moves R.crypto [.log .parameters (v.get "parameters")] _ w₁.cell :=
        append_moves rfl happ
      obtain ⟨⟨M, M', rr, hc⟩, hrow, hdel⟩ := commitEpoch_ok hcommit
      obtain ⟨ms, hms, m₃⟩ := publishNotice_moves hnotice
      have ho := outcome_still hout
      have hs := save_ok hsave
      refine .inr ⟨_, hnone, ⟨logId, tid, notice, rfl⟩, hgen, hcheck,
        ⟨_, M, M', _, entry, rr, ms, m₁.steps, hc, hms, ?_⟩, hs.stored, ?_⟩
      · rw [hs.ledger, ho.ledger]
        exact m₃.steps
      · rw [hs.deletion, ho.deletion, m₃.deletion, hdel, m₁.deletion]

/-! ## Uploads -/

/-- What one item of an upload does before it is saved. -/
inductive ItemMoved (R : Relay) (call : Call) (index : Nat) (r : Json) (a b : Cell) : Prop where
  | envelope : call.route = .envelopesPost →
      uploadEnvelopeCheck R.crypto a.store a.chain call r = .ok () →
      Moves R.crypto [.log .envelope r] a b → ItemMoved R call index r a b
  | repair : call.route = .repair →
      repairCheck R.crypto a.store a.chain call
        ((PallaSync.a call.value "receipts").getD index .null) r = .ok () →
      Moves R.crypto [.log .record r] a b → ItemMoved R call index r a b
  | part {duplicate : Bool} : call.route = .partsPost →
      record R.crypto a.store a.chain r call.auth true a.store.imports.isSome =
        .ok duplicate →
      Moves R.crypto [.part r] a b → ItemMoved R call index r a b
  | record {duplicate : Bool} :
      call.route ≠ .envelopesPost → call.route ≠ .repair → call.route ≠ .partsPost →
      a.chain.writable = true →
      record R.crypto a.store a.chain r call.auth false a.store.imports.isSome =
        .ok duplicate →
      Moves R.crypto [.log .record r] a b → ItemMoved R call index r a b

theorem uploadRecord_ok {R : Relay} {call : Call} {index : Nat} {r : Json} {w w' : Work}
    {x : Json × Option Receipt} (he : call.route ≠ .envelopesPost) (hr : call.route ≠ .repair)
    (h : uploadRecord R.crypto call r w = .ok (x, w')) :
    ItemMoved R call index r w.cell w'.cell := by
  simp only [uploadRecord, bind_ok, chain_ok, failIf_ok, look_ok, check_ok, reservePayloadNonce,
    setStore_ok] at h
  obtain ⟨_, _, ⟨rfl, rfl⟩, _, _, ⟨hw, rfl⟩, _, _, ⟨rfl, rfl⟩, duplicate, _, ⟨hrec, rfl⟩, _, _,
    rfl, h⟩ := h
  rcases ite_ok.mp h with ⟨hroute, h⟩ | ⟨hroute, h⟩
  · obtain ⟨receipt, w₁, hpart, h⟩ := bind_ok.mp h
    obtain ⟨-, rfl⟩ := pure_ok.mp h
    have m := snapshotPart_moves hpart
    rw [hroute] at hrec
    exact .part (by simpa using hroute) hrec ⟨m.steps, m.chain, m.deletion⟩
  · obtain ⟨receipt, w₁, happ, h⟩ := bind_ok.mp h
    obtain ⟨-, rfl⟩ := pure_ok.mp h
    have m : Moves R.crypto [.log .record r] _ w₁.cell := append_moves rfl happ
    rw [Bool.not_eq_true] at hroute
    rw [hroute] at hrec hw
    exact .record he hr (by simpa using hroute) (by simpa using hw) hrec
      ⟨m.steps, m.chain, m.deletion⟩

theorem uploadItem_ok {R : Relay} {call : Call} {index : Nat} {r : Json} {w w' : Work}
    {x : Json × Option Receipt} (h : uploadItem R call index r w = .ok (x, w')) :
    w.cell.store.deletion = none ∧
    uploaderActive w.cell.store w.cell.chain call.auth = .ok () ∧
    ∃ mid, ItemMoved R call index r w.cell mid ∧ Saved mid w'.cell := by
  simp only [uploadItem, bind_ok, now_ok, lift_ok, check_ok] at h
  obtain ⟨t, _, ⟨-, rfl⟩, _, _, ⟨-, rfl⟩, _, _, ⟨hdel, rfl⟩, _, _, ⟨hact, rfl⟩, h⟩ := h
  refine ⟨?_, hact, ?_⟩
  · unfold notDeleted at hdel
    split at hdel
    · cases hdel
    · assumption
  · generalize hroute : call.route = route at h
    split at h
    · simp only [uploadEnvelope, bind_ok, check_ok, pure_ok] at h
      obtain ⟨_, w₁, ⟨_, _, ⟨hcheck, rfl⟩, _, _, happ, rfl, rfl⟩, _, w₂, hsave, rfl, rfl⟩ := h
      exact ⟨_, .envelope hroute hcheck
        (append_moves (w := { w with tick := w.tick + 1 }) rfl happ), save_ok hsave⟩
    · simp only [uploadRepair, bind_ok, check_ok, look_ok, pure_ok] at h
      obtain ⟨_, w₁, ⟨_, _, ⟨hcheck, rfl⟩, _, _, ⟨rfl, rfl⟩, _, _, happ, rfl, rfl⟩, _, w₂, hsave,
        rfl, rfl⟩ := h
      exact ⟨_, .repair hroute hcheck
        (append_moves (w := { w with tick := w.tick + 1 }) rfl happ), save_ok hsave⟩
    · rename_i he hr
      rw [← hroute] at he hr
      obtain ⟨_, w₁, hup, h⟩ := bind_ok.mp h
      obtain ⟨_, w₂, hsave, h⟩ := bind_ok.mp h
      obtain ⟨-, rfl⟩ := pure_ok.mp h
      exact ⟨_, uploadRecord_ok (w := { w with tick := w.tick + 1 }) he hr hup, save_ok hsave⟩

/-! ## Deletion -/

theorem deleteLedger_pending {X : Crypto} {c : Chain} {v : Json} {authority : String}
    {requested deadline : Nat} :
    (deleteLedger X c v authority requested deadline).get "completed_at_ms" = .null := by
  rw [deleteLedger, Json.get_set, if_neg (by decide)]
  rfl

/-- The deletion of a device keeps the key of that device. -/
def Deletion.Keyed (d : Deletion) : Prop := d.deletingDeviceId.isSome → d.devicePublicKey.isSome

theorem certificateChain_stored {st : Store} {fuel : Nat} {id : String} {seen : List String}
    {certs : List Json} (h : certificateChain st fuel id seen = .ok certs) :
    (st.object .device id).isSome := by
  cases fuel with
  | zero => cases h
  | succ fuel =>
      simp only [certificateChain, Check.bind_ok, Check.failIf_ok, Check.require_ok] at h
      obtain ⟨_, -, d, hd, -⟩ := h
      rw [hd]
      rfl

theorem deletingDevice_keyed {st : Store} {auth : Auth} {key : Option String} {certs : List Json}
    (h : deletingDevice st auth = .ok (key, certs)) (hauth : auth.device.isSome) :
    key.isSome := by
  unfold deletingDevice at h
  split at h
  · rename_i hnone
    rw [hnone] at hauth
    cases hauth
  · obtain ⟨_, hcerts, h⟩ := Check.bind_ok.mp h
    have hkey := congrArg Prod.fst (Check.pure_ok.mp h)
    rw [show key = _ from hkey, Option.isSome_map]
    exact certificateChain_stored hcerts

theorem delete_ok {R : Relay} {auth : Auth} {v : Json} {w w' : Work} {r : Json}
    (h : delete R auth v w = .ok (r, w')) :
    ∃ d, w'.cell.store.deletion = some d ∧ d.completedAt = .null ∧ d.Keyed := by
  simp only [delete, bind_ok, lift_ok, check_ok, chain_ok, now_ok, attempt_ok, pure_ok] at h
  obtain ⟨_, _, ⟨-, rfl⟩, _, _, ⟨-, rfl⟩, _, w₁, -, _, _, ⟨rfl, rfl⟩, t, _, ⟨-, rfl⟩, _, w₂, -,
    _, _, ⟨rfl, rfl⟩, _, _, ⟨-, rfl⟩, _, _, ⟨hkey, rfl⟩, _, _, ⟨st, hst, rfl⟩, -, rfl⟩ := h
  split at hst
  · cases hst
  · obtain rfl := Option.some.inj hst
    exact ⟨_, rfl, deleteLedger_pending, deletingDevice_keyed hkey⟩

end PallaSync
