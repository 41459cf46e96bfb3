import PallaSync.Course

/-!
# Beside the ledger: programs

Some tables of a store are not part of its ledger: the staged import, the
reserved payload nonces, the outcomes, the offers and the published heads. Few
programs write them. The lemmas that say so follow the programs, once for
every relation that looks at these tables only (`Aside`); a handler is a step
of such a relation when recording its own outcome is one, and writing its own
offer.
-/

namespace PallaSync

open Atomic

/-- What is beside the ledger, and the stored chain row. -/
def Store.aside (st : Store) : Store :=
  { Store.blank with
    imports := st.imports
    payloadNonces := st.payloadNonces
    outcomes := st.outcomes
    offers := st.offers
    offerHistory := st.offerHistory
    heads := st.heads
    chain := st.chain }

/-- What a statement on tables of the ledger leaves, but for the registry. -/
def Store.spared (st : Store) :
    Store × Table CursorRow CursorRow.cursor × List RegistryHistoryRow ×
      Table DeleteVersionRow DeleteVersionRow.receiptHash ×
      Table RegistryRow RegistryRow.deviceId :=
  (st.aside, st.cursors, st.registryHistory, st.deleteVersions, st.registry)

/-- A frame that looks at these tables only, and asks at most that no row of
the cursors and of the versions of the registry is lost. -/
structure Aside (F : Frame Work) : Prop where
  still : ∀ w w' : Work, w'.cell.store.aside = w.cell.store.aside →
    w.cell.store.Accrues w'.cell.store → F.rel w w'

/-- Such a frame, of which saving is a step too. -/
structure SavedAside (F : Frame Work) : Prop extends Aside F where
  save : ∀ R, Keeps F (save R)

section Programs

variable {F : Frame Work} {α : Type} (X : Crypto) (R : Relay)

namespace Aside

variable (hF : Aside F)

include hF

theorem reads {m : Tx α} (h : Reads m) : Keeps F m := fun w x w' hm => by
  obtain ⟨he, haccrues⟩ := h w x w' hm
  simp only [seen, Store.uncursored, Prod.mk.injEq, Store.mk.injEq] at he
  exact hF.still _ _ (by simp only [Store.aside, he]) haccrues

theorem silent {m : Tx α} (h : Silent m) : Keeps F m := hF.reads h.reads

theorem chain : Keeps F chain := hF.silent chain_silent

theorem look (f : Store → α) : Keeps F (look f) := hF.silent (look_silent f)

theorem check (f : Store → Chain → Except ApiError α) : Keeps F (check f) :=
  hF.silent (check_silent f)

theorem now : Keeps F now := hF.silent now_silent

theorem newId : Keeps F newId := hF.silent newId_silent

theorem setChain (f : Chain → Chain) : Keeps F (setChain f) := by
  intro w u w' h
  obtain rfl := setChain_ok.mp h
  exact hF.still _ _ rfl (.refl _)

/-- A program that writes tables of the ledger only, but for the registry. -/
theorem of_spares {m : Tx α} (h : ∀ w x w', m w = .ok (x, w') →
    w'.cell.store.spared = w.cell.store.spared) : Keeps F m := fun w x w' hm => by
  have he := h w x w' hm
  simp only [Store.spared, Prod.mk.injEq] at he
  exact hF.still _ _ he.1 (.of_eq he.2.1 he.2.2.1 he.2.2.2.1 he.2.2.2.2)

/-- A statement on tables of the ledger. -/
theorem setStore {f : Store → Store} (hf : ∀ st, (f st).spared = st.spared) :
    Keeps F (setStore f) := hF.of_spares fun w u w' h => by
  obtain rfl := setStore_ok.mp h
  exact hf w.cell.store

/-- A statement that adds a row to a table of the ledger. -/
theorem attempt {β : Type} {x : Store → Option β} {g : Store → β → Store}
    (hg : ∀ st b, (g st b).spared = st.spared) : Keeps F (attempt fun st => (x st).map (g st)) :=
  hF.of_spares fun w u w' h => by
    obtain ⟨st, hst, rfl⟩ := attempt_ok.mp h
    obtain ⟨b, -, rfl⟩ := Option.map_eq_some_iff.mp hst
    exact hg w.cell.store b

/-- A device is added without a position of revocation. -/
theorem insertRegistry (row : RegistryRow) (hrow : row.revokedSeq = none) :
    Keeps F (PallaSync.attempt (·.insertRegistry row)) := by
  intro w u w' h
  obtain ⟨st, hst, rfl⟩ := attempt_ok.mp h
  have hversioned (hw : w.cell.store.Versioned) : st.Versioned := hw.insert hst hrow
  obtain ⟨tab, -, rfl⟩ := Option.map_eq_some_iff.mp hst
  exact hF.still _ _ rfl ⟨fun _ _ h => h, List.prefix_append _ _, rfl, hversioned⟩

/-- Rows of the registry are activated or revoked. -/
theorem updateRegistry {p : RegistryRow → Bool} {f : RegistryRow → RegistryRow}
    (hf : ∀ r, (f r).deviceId = r.deviceId)
    (hnext : ∀ r, p r → Enlistment.Next r.enlistment (f r).enlistment) :
    Keeps F (PallaSync.setStore (·.updateRegistry p f hf)) := by
  intro w u w' h
  obtain rfl := setStore_ok.mp h
  exact hF.still _ _ rfl ⟨fun _ _ h => h, List.prefix_append _ _, rfl, fun hw => hw.update hnext⟩

theorem putObject (kind : Kind) (v : Json) (log : Option (String × Nat)) :
    Keeps F (putObject X kind v log) := by
  refine hF.of_spares fun w x w' h => ?_
  obtain ⟨-, hw, -⟩ | ⟨-, -, -, tab, -, hw⟩ := putObject_ok h
  · rw [hw]
  · rw [hw]
    rfl

theorem transparency (op : Operation) (digest : String) (seq : Option Nat)
    (code : Option Code) : Keeps F (transparency X op digest seq code) := by
  refine hF.of_spares fun w x w' h => ?_
  obtain ⟨tab, -, hw, -⟩ := transparency_ok h
  rw [hw]
  rfl

theorem makeReceipt (v : Json) (seq : Option Nat) (entryHash : Option String)
    (previous : String) (received : Nat) (hash : String) :
    Keeps F (makeReceipt X v seq entryHash previous received hash) := by
  refine hF.of_spares fun w x w' h => ?_
  rw [(makeReceipt_ok h).1]

theorem storeReceipt (kind : Kind) (id : String) (r : Receipt) :
    Keeps F (storeReceipt kind id r) := by
  refine hF.of_spares fun w x w' h => ?_
  obtain ⟨-, tab, -, hw⟩ := storeReceipt_ok h
  rw [hw]
  rfl

theorem append (kind : Kind) (v : Json) : Keeps F (append X kind v) := by
  refine .bind (hF.check _) fun before => ?_
  cases before with
  | some original => exact .pure _
  | none =>
      exact .bind hF.chain fun _ => .bind (.failIf _ _) fun _ =>
        .bind hF.now fun _ => .bind (hF.putObject _ _ _ _) fun _ =>
        .bind (hF.setStore fun _ => rfl) fun _ => .bind (hF.setChain _) fun _ =>
        .bind (hF.attempt fun _ _ => rfl) fun _ => .bind (hF.transparency _ _ _ _ _) fun _ =>
        .bind (hF.makeReceipt _ _ _ _ _ _ _) fun _ => .bind (hF.storeReceipt _ _ _) fun _ =>
        .pure _

theorem snapshotPart (v : Json) : Keeps F (snapshotPart X v) :=
  .bind (hF.putObject _ _ _ _) fun _ => .ite
    (.bind (hF.transparency _ _ _ _ _) fun _ => .bind hF.chain fun _ =>
      .bind hF.now fun _ => .bind (hF.makeReceipt _ _ _ _ _ _ _) fun _ =>
      .bind (hF.storeReceipt _ _ _) fun _ => .pure _)
    (.bind (hF.look _) fun _ => .require _ _)

theorem publishNotice : Keeps F (publishNotice R) :=
  .bind (hF.look _) fun _ => .ite (.pure _)
    (.bind hF.newId fun _ => .bind hF.now fun _ => .bind (hF.transparency _ _ _ _ _) fun _ =>
      hF.setStore fun _ => rfl)

theorem enlist (status : Status) (d : Json) : Keeps F (enlist X status d) :=
  .bind (hF.append X _ _) fun _ => .bind (hF.insertRegistry _ rfl) fun _ => .pure _

theorem revoke (seq : Nat) (id : String) : Keeps F (revoke seq id) :=
  hF.updateRegistry _ fun _ _ => .revoked seq

theorem activate (id : String) : Keeps F (activate id) :=
  hF.updateRegistry _ fun r hr => .activated fun hs => by
    simp only [Bool.and_eq_true, bne_iff_ne] at hr
    exact hr.2 hs

theorem expireEpoch (c : Chain) (epoch : Nat) :
    Keeps F (PallaSync.setStore (·.expireEpoch c epoch)) :=
  hF.setStore fun _ => rfl

theorem commitEpoch (commit : EpochCommit) : Keeps F (commitEpoch X commit) :=
  .bind (.collect (hF.enlist X _) _) fun _ => .bind (.collect (hF.append X _) _) fun _ =>
    .bind (.collect (hF.append X _) _) fun _ => .bind (hF.append X _ _) fun _ =>
    .bind (.each (hF.revoke _) _) fun _ => .bind (hF.setChain _) fun _ => .pure _

theorem enroll (auth : Auth) (v : Json) (request : Option Json)
    (hout : ∀ response, Keeps F (outcome R.crypto .enroll
      (s (v.get "device_record") "device_id") v response)) :
    Keeps F (enroll R auth v request) := by
  refine .bind (.lift _) fun _ => .bind (.lift _) fun _ => .bind (hF.check _) fun _ =>
    .bind (.lift _) fun _ => .bind (hF.check _) fun before => ?_
  cases before with
  | some response => exact .pure _
  | none =>
      exact .bind (hF.check _) fun _ => .bind (hF.enlist _ _ _) fun _ =>
        .bind (.collect (hF.append _ _) _) fun _ => .bind (.collect (hF.append _ _) _) fun _ =>
        .bind (hout _) fun _ => .pure _

theorem epoch (auth : Auth) (v : Json) (device : Option String)
    (hout : ∀ response, Keeps F (outcome R.crypto .epoch (R.crypto.objectHash (v.get "epoch")) v
      response)) : Keeps F (epoch R auth v device) := by
  refine .bind (.lift _) fun _ => .bind (.lift _) fun _ => .bind (hF.check _) fun before => ?_
  cases before with
  | some response => exact .pure _
  | none =>
      exact .bind (hF.check _) fun _ => .bind (hF.commitEpoch _ _) fun _ =>
        .bind (hout _) fun _ => .pure _

theorem offer (auth : Auth) (v : Json)
    (hrow : ∀ row : OfferRow, row.requestId = s v "request_id" → row.request = none →
      row.status = .awaitingApproval → Keeps F (PallaSync.attempt (·.insertOffer row)))
    (hout : ∀ response, Keeps F (outcome R.crypto .offer (s v "request_id") v response)) :
    Keeps F (offer R auth v) := by
  refine .bind (.lift _) fun _ => .bind (.failIf _ _) fun _ => .bind hF.chain fun _ =>
    .bind (.failIf _ _) fun _ => .bind (hF.check _) fun before => ?_
  cases before with
  | some response => exact .pure _
  | none =>
      exact .bind hF.now fun _ => .bind (.failIf _ _) fun _ => .bind hF.now fun _ =>
        .bind (.failIf _ _) fun _ => .bind (hrow _ rfl rfl rfl) fun _ => .bind (hout _) fun _ =>
        .pure _

/-- The decision rewrites the status of the offer. -/
theorem approve (auth : Auth) (id : String) (v : Json) (reject : Bool)
    (hrow : ∀ status seq, Keeps F (PallaSync.setStore (·.updateOffer id
      (fun r => { r with status, updatedSeq := seq }) fun _ => rfl)))
    (hout : ∀ response, Keeps F
      (outcome R.crypto (if reject then .rejectRequest else .approveRequest) id v response))
    (henroll : reject = false → ∀ response, Keeps F (outcome R.crypto .enroll
      (s (v.get "device_record") "device_id") v response)) :
    Keeps F (approve R auth id v reject) := by
  refine .bind (hF.look _) fun _ => .bind (.require _ _) fun _ => .bind (.require _ _) fun _ =>
    .bind (.failIf _ _) fun _ => .bind (hF.check _) fun before => ?_
  cases before with
  | some response => exact .pure _
  | none =>
      refine .bind hF.now fun _ => .bind (.failIf _ _) fun _ => .bind hF.chain fun _ =>
        .bind (.failIf _ _) fun _ => ?_
      cases reject with
      | true =>
          exact .bind (.lift _) fun _ => .bind hF.chain fun _ => .bind (hrow _ _) fun _ =>
            .bind (hout _) fun _ => .pure _
      | false =>
          exact .bind (hF.enroll R _ _ _ (henroll rfl)) fun _ => .bind hF.chain fun _ =>
            .bind (hrow _ _) fun _ => .bind (hout _) fun _ => .pure _

theorem ack (auth : Auth) (id : String) (v : Json) : Keeps F (ack R auth id v) :=
  .bind (.lift _) fun _ => .bind (.failIf _ _) fun _ => .bind hF.chain fun _ =>
    .bind (.failIf _ _) fun _ => .bind (hF.look _) fun _ => .bind (.failIf _ _) fun _ =>
    .bind (hF.activate _) fun _ => .pure _

theorem snapshot (v : Json) (hout : ∀ response, Keeps F (outcome R.crypto .snapshot
    (s (v.get "compaction") "compaction_id") v response)) : Keeps F (snapshot R v) := by
  refine .bind (.lift _) fun _ => .bind (.lift _) fun _ => .bind (hF.check _) fun before => ?_
  cases before with
  | some response => exact .pure _
  | none =>
      exact .bind (hF.check _) fun _ => .bind (hF.append _ _ _) fun _ =>
        .bind (hout _) fun _ => .pure _

theorem expire : Keeps F expire :=
  .bind hF.chain fun _ => .bind hF.now fun _ => .bind (hF.look _) fun _ =>
    .each (hF.expireEpoch _) _

theorem handoff (comp : Json) (through : Nat) : Keeps F (handoff comp through) := by
  refine .bind hF.chain fun _ => .ite (.pure _) (.bind (hF.look _) fun _ =>
    .bind (.each (fun epoch => ?_) _) fun _ => hF.expire)
  exact .bind hF.chain fun _ => .bind (hF.look _) fun _ => .ite (.pure _)
    (.bind (hF.look _) fun _ => .bind (.failIf _ _) fun _ => .bind (hF.look _) fun _ =>
      .bind (.require _ _) fun _ => .bind hF.now fun _ => hF.setStore fun _ => rfl)

theorem prune (auth : Auth) (v : Json) (hout : ∀ response, Keeps F (outcome R.crypto .prune
    (s (v.get "admin_operation") "operation_id") v response)) : Keeps F (prune R auth v) := by
  refine .bind (.lift _) fun _ => .bind (.lift _) fun _ => .bind (hF.check _) fun before => ?_
  cases before with
  | some response => exact .pure _
  | none =>
      exact .bind (hF.check _) fun _ => .bind (hF.append _ _ _) fun _ =>
        .bind hF.chain fun _ => .bind (hF.setStore fun _ => rfl) fun _ =>
        .bind (hF.setChain _) fun _ => .bind (hF.handoff _ _) fun _ =>
        .bind (hF.transparency _ _ _ _ _) fun _ => .bind (hout _) fun _ => .pure _

theorem delete (auth : Auth) (v : Json) : Keeps F (delete R auth v) := by
  refine .bind (.lift _) fun _ => .bind (hF.check _) fun _ =>
    .bind (.collect (hF.append _ _) _) fun _ => .bind hF.chain fun _ => .bind hF.now fun _ =>
    .bind (hF.transparency _ _ _ _ _) fun _ => .bind hF.chain fun _ => .bind (.lift _) fun _ =>
    .bind (hF.check _) fun _ => .bind (fun w u w' h => ?_) fun _ => .pure _
  obtain ⟨st, hst, rfl⟩ := attempt_ok.mp h
  split at hst
  · cases hst
  · obtain rfl := Option.some.inj hst
    exact hF.still _ _ rfl (.of_eq rfl rfl rfl rfl)

/-! ## Imports and uploads -/

theorem stageParameters (admin : String) (p : Json) : Keeps F (stageParameters X admin p) :=
  .bind (.failIf _ _) fun _ => .bind (.lift _) fun _ => .bind (hF.look _) fun _ =>
    .bind (.failIf _ _) fun _ => .bind (hF.putObject _ _ _ _) fun _ => .pure _

theorem resolvePass (admin : String) (ds : List Json) (verified : List (String × Json)) :
    Keeps F (resolvePass X admin ds verified) := by
  induction ds generalizing verified with
  | nil => exact .pure _
  | cons d ds ih =>
      refine .bind (hF.check _) fun key => ?_
      cases key with
      | some key =>
          exact .bind (.bind (.lift _) fun _ => .bind (.lift _) fun _ =>
            .bind (hF.putObject _ _ _ _) fun _ => .pure _) fun _ => ih _
      | none => exact .bind (ih _) fun _ => .pure _

theorem resolveDevices (admin : String) (fuel : Nat) (ds : List Json)
    (verified : List (String × Json)) : Keeps F (resolveDevices X admin fuel ds verified) := by
  induction fuel generalizing ds verified with
  | zero =>
      cases ds with
      | nil => exact .pure _
      | cons d ds => exact .throw _
  | succ fuel ih =>
      cases ds with
      | nil => exact .pure _
      | cons d ds =>
          exact .bind (hF.resolvePass X _ _ _) fun _ => .bind (.failIf _ _) fun _ => ih _ _

theorem stageObjects (admin : String) (v : Json) : Keeps F (stageObjects X admin v) := by
  refine .bind (.each (hF.stageParameters X _) _) fun _ =>
    .bind (hF.resolveDevices X _ _ _ _) fun _ => .bind (.each (fun _ => ?_) _) fun _ =>
    .bind (.each (fun _ => ?_) _) fun _ => .each (fun _ => ?_) _
  · exact .bind (hF.look _) fun _ => .bind (.failIf _ _) fun _ => .bind (hF.check _) fun _ =>
      .bind (.lift _) fun _ => .bind (hF.look _) fun _ => .bind (.failIf _ _) fun _ =>
      .bind (hF.putObject _ _ _ _) fun _ => .pure _
  · exact .bind (hF.check _) fun _ => .bind (hF.check _) fun _ => .bind (.lift _) fun _ =>
      .bind (hF.putObject _ _ _ _) fun _ => .pure _
  · exact .bind (hF.look _) fun _ => .bind (.require _ _) fun _ => .bind (.lift _) fun _ =>
      .bind (hF.putObject _ _ _ _) fun _ => .pure _

theorem adoptStaged (oldGeneration : Nat) (kind : Kind) (id : String) :
    Keeps F (adoptStaged X oldGeneration kind id) :=
  .bind (hF.look _) fun _ => .bind (.require _ _) fun _ => .ite
    (.bind (hF.look _) fun _ => hF.enlist X _ _) (.bind (hF.append X _ _) fun _ => .pure _)

theorem uploadEnvelope (call : Call) (r : Json) : Keeps F (uploadEnvelope X call r) :=
  .bind (hF.check _) fun _ => .bind (hF.append X _ _) fun _ => .pure _

theorem uploadRepair (call : Call) (index : Nat) (r : Json) :
    Keeps F (uploadRepair X call index r) :=
  .bind (hF.check _) fun _ => .bind (hF.look _) fun _ => .bind (hF.append X _ _) fun _ => .pure _

/-- The staged import is given up by a re-seed. -/
theorem reseed (auth : Auth) (v : Json)
    (hout : ∀ response, Keeps F (outcome R.crypto .reseed
      (s (v.get "admin_operation") "operation_id") v response))
    (himports : ∀ f : Store → Option Import,
      Keeps F (PallaSync.setStore fun st => { st with imports := f st })) :
    Keeps F (reseed R auth v) := by
  refine .bind (.lift _) fun _ => .bind (.lift _) fun _ => .bind (.lift _) fun _ =>
    .bind (hF.check _) fun before => ?_
  cases before with
  | some response => exact .pure _
  | none =>
      exact .bind hF.chain fun _ => .bind (hF.check _) fun _ =>
        .bind (.bind hF.newId fun _ => .bind hF.newId fun _ => hF.setChain _) fun _ =>
        .bind (hF.check _) fun _ => .bind (.collect (fun _ => .bind (hF.look _) fun _ =>
          .collect (hF.adoptStaged R.crypto _ _) _) _) fun _ =>
        .bind (hF.check _) fun _ => .bind (hF.append _ _ _) fun _ =>
        .bind (hF.commitEpoch _ _) fun _ => .bind (hF.check _) fun _ =>
        .bind (hF.append _ _ _) fun _ => .bind hF.chain fun _ => .bind (hout _) fun _ =>
        .bind (himports fun _ => none) fun _ => .pure _

/-! ## Programs that save -/

theorem auditReject (objects : List Json) (code : Code) :
    KeepsBut F (save R) (auditReject R objects code) :=
  .later (.each (fun _ => .bind (hF.transparency _ _ _ _ _) fun _ => .pure _) _) fun _ => .self

theorem notice : KeepsBut F (save R) (do PallaSync.publishNotice R; save R) :=
  .later (hF.publishNotice R) fun _ => .self

theorem genesis (v : Json) (hout : ∀ response, Keeps F (outcome R.crypto .genesis
    (s (v.get "parameters") "chain_id") v response)) :
    KeepsBut F (save R) (genesis R v) := by
  refine .later (.lift _) fun _ => .later (.lift _) fun _ => .later (.lift _) fun _ =>
    .later (hF.check _) fun before => ?_
  cases before with
  | some response => exact .of_keeps (.pure _)
  | none =>
      exact .later (hF.look _) fun _ => .later (.failIf _ _) fun _ =>
        .later (.failIf _ _) fun _ => .later (.failIf _ _) fun _ =>
        .later hF.newId fun _ => .later hF.newId fun _ => .later hF.newId fun _ =>
        .later (hF.setChain _) fun _ => .later (hF.check _) fun _ =>
        .later (hF.append _ _ _) fun _ => .later (hF.commitEpoch _ _) fun _ =>
        .later hF.chain fun _ => .later (hF.publishNotice R) fun _ => .later (hout _) fun _ =>
        .earlier .self fun _ => .pure _

theorem stageChain (p e : Json) (logId : String) :
    KeepsBut F (save R) (stageChain R p e logId) :=
  .later hF.newId fun _ => .later hF.newId fun _ => .later (hF.setChain _) fun _ => .self

/-- An import is noted as staged. -/
theorem stage (v : Json) (himports : ∀ f : Store → Option Import,
    Keeps F (PallaSync.setStore fun st => { st with imports := f st })) :
    KeepsBut F (save R) (stage R v) := by
  refine .later (.lift _) fun _ => .later (.failIf _ _) fun _ => .later (hF.check _) fun _ =>
    .later (.lift _) fun _ => .later (hF.stageObjects R.crypto _ _) fun _ =>
    .later (hF.check _) fun _ => .later hF.newId fun _ => .later (hF.look _) fun _ =>
    .later (himports _) fun _ => .later (hF.look _) fun c => ?_
  cases c with
  | some c => exact .of_keeps (.bind (hF.check _) fun _ => .pure _)
  | none => exact .earlier (hF.stageChain R _ _ _) fun _ => .bind (hF.check _) fun _ => .pure _

/-- The nonce of an uploaded record is reserved. -/
theorem uploadItem (call : Call) (index : Nat) (r : Json)
    (hreserve : Keeps F (reservePayloadNonce r)) :
    KeepsBut F (save R) (uploadItem R call index r) := by
  refine .later hF.now fun _ => .later (.lift _) fun _ => .later (hF.check _) fun _ =>
    .later (hF.check _) fun _ => ?_
  split
  · exact .later (hF.uploadEnvelope _ _ _) fun _ => .earlier .self fun _ => .pure _
  · exact .later (hF.uploadRepair _ _ _ _) fun _ => .earlier .self fun _ => .pure _
  · exact .later (.bind hF.chain fun _ => .bind (.failIf _ _) fun _ => .bind (hF.look _) fun _ =>
      .bind (hF.check _) fun _ => .bind hreserve fun _ => .ite
        (.bind (hF.snapshotPart _ _) fun _ => .pure _)
        (.bind (hF.append _ _ _) fun _ => .pure _)) fun _ => .earlier .self fun _ => .pure _

end Aside

/-! ## Requests -/

/-- Under what the response of a request is recorded. -/
def Call.record (X : Crypto) (call : Call) : Option (OutcomeScope × String) :=
  let v := call.value
  match call.route with
  | .genesis => some (.genesis, s (v.get "parameters") "chain_id")
  | .enroll => some (.enroll, s (v.get "device_record") "device_id")
  | .approve => some (.approveRequest, call.param)
  | .reject => some (.rejectRequest, call.param)
  | .epochsPost | .revoke => some (.epoch, X.objectHash (v.get "epoch"))
  | .offer => some (.offer, s v "request_id")
  | .snapshot => some (.snapshot, s (v.get "compaction") "compaction_id")
  | .prune => some (.prune, s (v.get "admin_operation") "operation_id")
  | .reseed => some (.reseed, s (v.get "admin_operation") "operation_id")
  | _ => none

/-- The outcomes a request can write. An approval is also an enrollment. -/
def Call.Records (X : Crypto) (call : Call) (q : OutcomeScope × String) : Prop :=
  call.record X = some q ∨
    call.route = .approve ∧ q = (.enroll, s (call.value.get "device_record") "device_id")

/-- The offers a request can write. -/
def Call.Offers (call : Call) (id : String) : Prop :=
  call.route = .offer ∧ id = s call.value "request_id" ∨
    (call.route = .approve ∨ call.route = .reject) ∧ id = call.param

/-- What a request itself writes beside the ledger is a step of the frame. -/
structure Serves (F : Frame Work) (R : Relay) (call : Call) : Prop extends Aside F where
  outcome : ∀ {q} response, call.Records R.crypto q →
    Keeps F (outcome R.crypto q.1 q.2 call.value response)
  insertOffer : ∀ row : OfferRow, call.Offers row.requestId →
    Keeps F (attempt (·.insertOffer row))
  updateOffer : ∀ status seq, call.Offers call.param → Keeps F (setStore (·.updateOffer call.param
    (fun r => { r with status, updatedSeq := seq }) fun _ => rfl))
  imports : call.route = .importChain ∨ call.route = .reseed → ∀ f : Store → Option Import,
    Keeps F (setStore fun st => { st with imports := f st })

/-- The same, of a frame that asks for the decisions about an offer as a whole. -/
structure Handles (F : Frame Work) (R : Relay) (call : Call) : Prop extends Aside F where
  outcome : ∀ {q} response, call.Records R.crypto q →
    Keeps F (outcome R.crypto q.1 q.2 call.value response)
  offer : call.route = .offer → Keeps F (offer R call.auth call.value)
  decides : ∀ reject, call.route = (if reject then .reject else .approve) →
    Keeps F (approve R call.auth call.param call.value reject)
  imports : call.route = .importChain ∨ call.route = .reseed → ∀ f : Store → Option Import,
    Keeps F (setStore fun st => { st with imports := f st })

namespace Handles

variable {R} {call : Call} (hF : Handles F R call)

include hF

theorem recorded {scope : OutcomeScope} {id : String}
    (h : call.record R.crypto = some (scope, id)) (response : Json) :
    Keeps F (PallaSync.outcome R.crypto scope id call.value response) :=
  hF.outcome _ (.inl h)

theorem writeRoute : Keeps F (writeRoute R call) := by
  have hA := hF.toAside
  unfold PallaSync.writeRoute
  split
  · rename_i hroute
    exact hA.enroll R _ _ _ fun _ => hF.recorded (by rw [Call.record, hroute]) _
  · rename_i hroute
    exact hA.epoch R _ _ _ fun _ => hF.recorded (by rw [Call.record, hroute]) _
  · rename_i hroute
    exact hA.epoch R _ _ _ fun _ => hF.recorded (by rw [Call.record, hroute]) _
  · rename_i hroute
    exact hF.offer hroute
  · rename_i hroute
    exact hF.decides false hroute
  · rename_i hroute
    exact hF.decides true hroute
  · exact .bind (hA.ack R _ _ _) fun _ => .pure _
  · rename_i hroute
    exact hA.snapshot R _ fun _ => hF.recorded (by rw [Call.record, hroute]) _
  · rename_i hroute
    exact .bind (hA.prune R _ _ fun _ => hF.recorded (by rw [Call.record, hroute]) _) fun _ =>
      .pure _
  · rename_i hroute
    exact .bind (hA.reseed R _ _ (fun _ => hF.recorded (by rw [Call.record, hroute]) _)
      (hF.imports (.inr hroute))) fun _ => .pure _
  · exact .bind (hA.delete R _ _) fun _ => .pure _
  · exact .throw _

/-- The executing transaction is a step of the frame, but for saving. -/
theorem executeTx : KeepsBut F (save R) (executeTx R call) := by
  have hA := hF.toAside
  unfold PallaSync.executeTx
  split
  · rename_i hroute
    exact .later (.lift _) fun _ => .earlier (hA.genesis R _ fun _ =>
      hF.recorded (by rw [Call.record, hroute]) _) fun _ => .pure _
  · rename_i hroute
    exact .later (.lift _) fun _ => .later (.lift _) fun _ =>
      .earlier (hA.stage R _ (hF.imports (.inl hroute))) fun _ => .pure _
  · exact .later (hA.look _) fun _ => .later (.require _ _) fun _ => .later (.failIf _ _) fun _ =>
      .later (hA.check _) fun _ => .later (.lift _) fun _ =>
      .ite (.of_keeps (.bind (hA.reads (exportChain_reads R _ _)) fun _ => .pure _)) (.ite
        (.of_keeps (.bind (hA.reads (readRoute_reads R call)) fun _ => .bind (.lift _) fun _ =>
          .pure _))
        (.later hF.writeRoute fun _ => .later (.lift _) fun _ => .earlier .self fun _ =>
          .bind (hA.check _) fun _ => .pure _))

end Handles

namespace Serves

variable {R} {call : Call} (hF : Serves F R call)

include hF

theorem recorded {scope : OutcomeScope} {id : String}
    (h : call.record R.crypto = some (scope, id)) (response : Json) :
    Keeps F (PallaSync.outcome R.crypto scope id call.value response) :=
  hF.outcome _ (.inl h)

theorem handles : Handles F R call where
  toAside := hF.toAside
  outcome := hF.outcome
  imports := hF.imports
  offer hroute := hF.toAside.offer R _ _
    (fun row hrow _ _ => hF.insertOffer row (.inl ⟨hroute, hrow⟩)) fun _ =>
      hF.recorded (by rw [Call.record, hroute]) _
  decides
    | false, hroute => hF.toAside.approve R _ _ _ _
        (fun _ _ => hF.updateOffer _ _ (.inr ⟨.inl hroute, rfl⟩))
        (fun _ => hF.recorded (by rw [Call.record, hroute]; rfl) _)
        fun _ _ => hF.outcome _ (.inr ⟨hroute, rfl⟩)
    | true, hroute => hF.toAside.approve R _ _ _ _
        (fun _ _ => hF.updateOffer _ _ (.inr ⟨.inr hroute, rfl⟩))
        (fun _ => hF.recorded (by rw [Call.record, hroute]; rfl) _)
        fun hreject => (by cases hreject)

/-- The executing transaction is a step of the frame, but for saving. -/
theorem executeTx : KeepsBut F (save R) (executeTx R call) := hF.handles.executeTx

end Serves

end Programs

end PallaSync
