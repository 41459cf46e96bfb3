import PallaSync.Pages

/-!
# The evidence of a deletion

A deletion is answered with a ledger, a receipt of the ledger and the
transparency entry both are bound to, each naming the hash of another. The
completion rewrites ledger and receipt in place. `Consistent` is what a client
verifies before it erases its own data; it holds of the proof as it was filed
and as it was completed, because the entry is bound to the ledger as it was
before the completion, which a client can rebuild (`initialLedger`).
-/

namespace PallaSync

open Atomic Machine

/-! ## Ledgers, receipts and entries -/

/-- The ledger as it was before its completion. -/
def initialLedger (X : Crypto) (ledger : Json) : Json :=
  let unsigned := (ledger.set "completed_at_ms" .null).remove "receipt_hash"
  unsigned.set "receipt_hash" (.str (X.objectHash unsigned))

/-- The members of the ledger that the receipt repeats. -/
def repeatedMembers : List String :=
  ["assurance", "authorization_hash", "authorized_epoch_hash", "authorized_parameters_hash",
   "chain_id", "completed_at_ms", "delete_after_ms", "deletion_id", "requested_at_ms"]

/-- The delete entry of a chain, and the only one. -/
structure DeleteEntry (st : Store) (row : TransparencyRow) : Prop where
  stored : row ∈ st.transparency
  operation : row.entry.operation = .delete
  only : ∀ t ∈ st.transparency, t.entry.operation = .delete → t = row

/-- The links of a deletion proof: ledger, receipt and transparency entry. -/
structure Consistent (X : Crypto) (st : Store) (proof : Json) : Prop where
  ledgerHash : (proof.get "ledger").get "receipt_hash" =
    .str (X.objectHash ((proof.get "ledger").remove "receipt_hash"))
  repeats : ∀ k ∈ repeatedMembers,
    (proof.get "delete_receipt").get k = (proof.get "ledger").get k
  ledgerReceipt : (proof.get "delete_receipt").get "ledger_receipt_hash" =
    (proof.get "ledger").get "receipt_hash"
  signed : ∃ signature, X.signRelay (proof.get "delete_receipt") .delete = some signature ∧
    (proof.get "delete_receipt").get "relay_signature" = .str signature
  entry : ∃ row, DeleteEntry st row ∧
    (proof.get "delete_receipt").get "transparency_id" = .str row.transparencyId ∧
    (proof.get "delete_receipt").get "transparency_index" = .num row.idx ∧
    (proof.get "delete_receipt").get "transparency_hash" = .str row.hash ∧
    proof.get "deletion_transparency_entry" = row.entry.toJson ∧
    row.entry.objectHash = X.objectHash (initialLedger X (proof.get "ledger"))

/-- The proof `p` as the deleting transaction files it, bound to the entry `row`. -/
structure Filed (X : Crypto) (row : TransparencyRow) (p : Json) : Prop where
  form : ∃ (before c : Chain) (v op device certificates : Json) (authority : String)
      (requested deadline : Nat) (receipt : Json),
    deleteReceipt X c (deleteLedger X before v authority requested deadline) = .ok receipt ∧
    c.chainId = before.chainId ∧ c.transparencyId = row.transparencyId ∧
    c.transparencyIndex = row.idx ∧ c.transparencyHash = row.hash ∧
    row.entry.objectHash = X.objectHash (deleteLedger X before v authority requested deadline) ∧
    p = .obj [("admin_operation", op), ("delete_receipt", receipt),
      ("deletion_transparency_entry", row.entry.toJson), ("device_authorization", device),
      ("enrollment_chain", certificates), ("epoch", c.epoch),
      ("ledger", deleteLedger X before v authority requested deadline),
      ("parameters", c.parameters)]

/-- A proof is completed: the time of completion is set, and what is derived
from it is written anew. -/
structure Completes (p p' : Json) (t : Nat) : Prop where
  completed : (p'.get "ledger").get "completed_at_ms" = .num t
  ledger : ∀ k, k ≠ "completed_at_ms" → k ≠ "receipt_hash" →
    (p'.get "ledger").get k = (p.get "ledger").get k
  receipt : ∀ k, k ≠ "completed_at_ms" → k ≠ "ledger_receipt_hash" → k ≠ "relay_signature" →
    (p'.get "delete_receipt").get k = (p.get "delete_receipt").get k
  rest : ∀ k, k ≠ "ledger" → k ≠ "delete_receipt" → p'.get k = p.get k

section Proofs

variable {X : Crypto} {st : Store} {row : TransparencyRow} {p p' : Json}

/-- A signature covers everything but itself. -/
theorem signRelay_set (X : Crypto) (members : List (String × Json)) (x : Json) (ctx : Context) :
    X.signRelay ((Json.obj members).set "relay_signature" x) ctx =
      X.signRelay (.obj members) ctx := by
  unfold Crypto.signRelay Crypto.signingBytes
  rw [Json.remove_set]

theorem Filed.consistent (h : Filed X row p) (hrow : DeleteEntry st row) : Consistent X st p := by
  obtain ⟨before, c, v, op, device, certificates, authority, requested, deadline, receipt,
    hreceipt, hid, htid, hidx, hhash, hobject, rfl⟩ := h.form
  obtain ⟨signature, hsign, h⟩ := Check.bind_ok.mp hreceipt
  obtain rfl := Check.pure_ok.mp h
  rw [Check.require_ok] at hsign
  refine ⟨rfl, ?_, rfl, ⟨signature, ?_, rfl⟩, ⟨row, hrow, ?_, ?_, ?_, rfl, hobject⟩⟩
  · simp only [repeatedMembers, List.forall_mem_cons]
    exact ⟨rfl, rfl, rfl, rfl, congrArg Json.str hid, rfl, rfl, rfl, rfl,
      fun _ hmem => (List.not_mem_nil hmem).elim⟩
  · exact (signRelay_set X _ _ _).trans hsign
  · exact congrArg Json.str htid
  · exact congrArg Json.num hidx
  · exact congrArg Json.str hhash

/-- What a completion writes. -/
theorem completedProof_ok {t : Nat} (h : completedProof X p t = .ok p') :
    ∃ ledger receipt signature,
      ledger = ((p.get "ledger").set "completed_at_ms" (.num t)).set "receipt_hash"
        (.str (X.objectHash (((p.get "ledger").set "completed_at_ms" (.num t)).remove
          "receipt_hash"))) ∧
      receipt = ((p.get "delete_receipt").set "completed_at_ms" (.num t)).set
        "ledger_receipt_hash" (ledger.get "receipt_hash") ∧
      X.signRelay receipt .delete = some signature ∧
      p' = (p.set "ledger" ledger).set "delete_receipt"
        (receipt.set "relay_signature" (.str signature)) := by
  obtain ⟨signature, hsign, h⟩ := Check.bind_ok.mp h
  exact ⟨_, _, signature, rfl, rfl, Check.require_ok.mp hsign, Check.pure_ok.mp h⟩

/-- The entry is bound to the ledger as it was filed. -/
theorem initialLedger_completed (X : Crypto) (c : Chain) (v : Json) (authority : String)
    (requested deadline t : Nat) (hash : Json) :
    initialLedger X (((deleteLedger X c v authority requested deadline).set "completed_at_ms"
      (.num t)).set "receipt_hash" hash) = deleteLedger X c v authority requested deadline := rfl

theorem Filed.objects (h : Filed X row p) : (∃ members, p = .obj members) ∧
    (∃ members, p.get "ledger" = .obj members) ∧
    ∃ members, p.get "delete_receipt" = .obj members := by
  obtain ⟨before, c, v, op, device, certificates, authority, requested, deadline, receipt,
    hreceipt, -, -, -, -, -, rfl⟩ := h.form
  obtain ⟨signature, -, h⟩ := Check.bind_ok.mp hreceipt
  obtain rfl := Check.pure_ok.mp h
  exact ⟨⟨_, rfl⟩, ⟨_, rfl⟩, ⟨_, rfl⟩⟩

/-- The members of a completed proof. -/
theorem Filed.completion {t : Nat} (h : Filed X row p) (hc : completedProof X p t = .ok p') :
    Completes p p' t ∧
      (p'.get "ledger").get "receipt_hash" =
        .str (X.objectHash ((p'.get "ledger").remove "receipt_hash")) ∧
      (p'.get "delete_receipt").get "completed_at_ms" = .num t ∧
      (p'.get "delete_receipt").get "ledger_receipt_hash" =
        (p'.get "ledger").get "receipt_hash" ∧
      (∃ signature, X.signRelay (p'.get "delete_receipt") .delete = some signature ∧
        (p'.get "delete_receipt").get "relay_signature" = .str signature) ∧
      initialLedger X (p'.get "ledger") = initialLedger X (p.get "ledger") := by
  obtain ⟨⟨ms, rfl⟩, ⟨ls, hl⟩, ⟨rs, hr⟩⟩ := h.objects
  obtain ⟨before, c, v, op, device, certificates, authority, requested, deadline, receipt₀,
    -, -, -, -, -, -, hform⟩ := h.form
  have hfiled : (Json.obj ms).get "ledger" =
      deleteLedger X before v authority requested deadline := by
    rw [hform]
    rfl
  obtain ⟨ledger, receipt, signature, hledger, hreceipt, hsign, rfl⟩ := completedProof_ok hc
  have hl' : (((Json.obj ms).set "ledger" ledger).set "delete_receipt"
      (receipt.set "relay_signature" (.str signature))).get "ledger" = ledger :=
    (Json.get_set_ne _ _ (by decide)).trans ((Json.get_set _ _ _ _).trans (if_pos rfl))
  have hr' : (((Json.obj ms).set "ledger" ledger).set "delete_receipt"
      (receipt.set "relay_signature" (.str signature))).get "delete_receipt" =
        receipt.set "relay_signature" (.str signature) :=
    (Json.get_set _ _ _ _).trans (if_pos rfl)
  have hinitial : initialLedger X ledger = initialLedger X ((Json.obj ms).get "ledger") := by
    rw [hledger, hfiled, initialLedger_completed]
    rfl
  rw [hl] at hledger
  rw [hr] at hreceipt
  have hcompleted : ledger.get "completed_at_ms" = .num t := by
    rw [hledger]
    exact (Json.get_set_ne _ _ (by decide)).trans ((Json.get_set _ _ _ _).trans (if_pos rfl))
  refine ⟨⟨?_, fun k hcomp hhash => ?_, fun k hcomp hlr hsig => ?_, fun k hnl hnr => ?_⟩,
    ?_, ?_, ?_, ⟨signature, ?_, ?_⟩, ?_⟩
  · rw [hl', hcompleted]
  · rw [hl', hl, hledger, Json.get_set_ne _ _ hhash, Json.get_set_ne _ _ hcomp]
  · rw [hr', hr, hreceipt, Json.get_set_ne _ _ hsig, Json.get_set_ne _ _ hlr,
      Json.get_set_ne _ _ hcomp]
  · rw [Json.get_set_ne _ _ hnr, Json.get_set_ne _ _ hnl]
  · rw [hl', hledger, Json.remove_set]
    exact (Json.get_set _ _ _ _).trans (if_pos rfl)
  · rw [hr', Json.get_set_ne _ _ (by decide), hreceipt, Json.get_set_ne _ _ (by decide)]
    exact (Json.get_set _ _ _ _).trans (if_pos rfl)
  · rw [hr', hl', Json.get_set_ne _ _ (by decide), hreceipt]
    exact (Json.get_set _ _ _ _).trans (if_pos rfl)
  · rw [hr']
    rw [hreceipt] at hsign ⊢
    exact (signRelay_set X _ _ _).trans hsign
  · rw [hr', hreceipt]
    exact (Json.get_set _ _ _ _).trans (if_pos rfl)
  · rw [hl', hinitial]

theorem Filed.completed {t : Nat} (h : Filed X row p) (hrow : DeleteEntry st row)
    (hc : completedProof X p t = .ok p') : Consistent X st p' := by
  obtain ⟨hcompletes, hhash, hat, hledger, hsigned, hinitial⟩ := h.completion hc
  obtain ⟨-, hrepeats, -, -, row', hrow', htid, hidx, hthash, hentry, hobject⟩ :=
    h.consistent hrow
  have hkept : ∀ {k}, k ≠ "completed_at_ms" → k ≠ "ledger_receipt_hash" →
      k ≠ "relay_signature" → (p'.get "delete_receipt").get k = (p.get "delete_receipt").get k :=
    hcompletes.receipt _
  refine ⟨hhash, fun k hk => ?_, hledger, hsigned, row', hrow', ?_, ?_, ?_, ?_, ?_⟩
  · by_cases hcomp : k = "completed_at_ms"
    · rw [hcomp, hat, hcompletes.completed]
    · have hne : ∀ m ∈ repeatedMembers,
          m ≠ "ledger_receipt_hash" ∧ m ≠ "relay_signature" ∧ m ≠ "receipt_hash" := by decide
      obtain ⟨hlr, hsig, hh⟩ := hne k hk
      rw [hkept hcomp hlr hsig, hcompletes.ledger k hcomp hh, hrepeats k hk]
  · rw [hkept (by decide) (by decide) (by decide), htid]
  · rw [hkept (by decide) (by decide) (by decide), hidx]
  · rw [hkept (by decide) (by decide) (by decide), hthash]
  · rw [hcompletes.rest _ (by decide) (by decide), hentry]
  · rw [hobject, hinitial]

end Proofs

/-! ## Delete entries -/

section Entries

variable {X : Crypto} {L L' : Ledger} {t : TransparencyRow}

/-- An entry is there already, or is the one noted. -/
theorem Noted.entries {op : Operation} {digest : String} {seq : Option Nat}
    {te : TransparencyEntry} {c : Chain} {tab tab' : Table TransparencyRow TransparencyRow.key}
    (h : Noted X op digest seq te c tab tab') (ht : t ∈ tab') :
    t ∈ tab ∨ t = ⟨c.transparencyId, c.transparencyIndex + 1, te,
      (c.noted X te).transparencyHash⟩ :=
  Table.mem_of_find?_insert h.find? ht

theorem Logged.entries {kind : Kind} {v : Json} {entry : Option LogEntry} {r : Receipt}
    (h : Logged X kind v entry r L L') (ht : t ∈ L'.transparency) :
    t ∈ L.transparency ∨ t.entry.operation = .accept := by
  cases h with
  | again _ => exact .inl ht
  | fresh h =>
      obtain hold | rfl := h.noted.entries ht
      · exact .inl hold
      · exact .inr h.noted.operation

/-- What the entries of a move are about. -/
theorem Step.entries {m : Move} (h : Step X m L L') (ht : t ∈ L'.transparency) :
    t ∈ L.transparency ∨ t.entry.operation = .accept ∨
      ∃ d, m = .evidence t.entry.operation d := by
  cases h with
  | log _ h => exact (h.entries ht).imp_right .inl
  | enlist h hr =>
      rw [hr.rest] at ht
      exact (h.entries ht).imp_right .inl
  | partAgain => exact .inl ht
  | part h =>
      obtain hold | rfl := h.noted.entries ht
      · exact .inl hold
      · exact .inr (.inl h.noted.operation)
  | evidence h =>
      obtain ⟨te, hn, -⟩ := h.noted
      obtain hold | rfl := hn.entries ht
      · exact .inl hold
      · exact .inr (.inr ⟨_, by rw [hn.operation]⟩)
  | stage _ h | revoke h | activate h =>
      rw [h.rest] at ht
      exact .inl ht
  | handoff _ h =>
      rw [h] at ht
      exact .inl ht
  | setEpoch | found | reincarnate => exact .inl ht
  | prune h | expire _ h =>
      rw [h.transparency] at ht
      exact .inl ht

/-- No entry deletes the chain. -/
def Ledger.Undeleted (L : Ledger) : Prop := ∀ t ∈ L.transparency, t.entry.operation ≠ .delete

theorem Step.undeleted {m : Move} (h : Step X m L L') (hm : ∀ d, m ≠ .evidence .delete d)
    (hL : L.Undeleted) : L'.Undeleted := fun t ht hop => by
  obtain hold | haccept | ⟨d, hd⟩ := h.entries ht
  · exact hL t hold hop
  · rw [haccept] at hop
    cases hop
  · exact hm d (hop ▸ hd)

theorem Steps.undeleted {ms : List Move} (h : Steps X ms L L')
    (hms : ∀ m ∈ ms, ∀ d, m ≠ .evidence .delete d) (hL : L.Undeleted) : L'.Undeleted :=
  h.preserves (fun _ _ _ hm hstep hM => hstep.undeleted hm hM) hms hL

/-- A chain that is not deleted has no delete entry. -/
theorem live_undeleted (X : Crypto) (cfg : RelayConfig) (es : List Event) (id : String)
    (hdel : (storeAfter X cfg es id).deletion = none) {t : TransparencyRow}
    (ht : t ∈ (storeAfter X cfg es id).transparency) : t.entry.operation ≠ .delete := by
  have hlaw : (storeAfter X cfg es id).Holds fun L => Settled X id L ∧ L.Undeleted := by
    refine ledger_invariant (fun L L' _ hb ho => ?_) (fun R cause a L' hX _ hp _ hL => ?_) es
    · obtain ⟨ms, hms, hsteps⟩ := ho
      refine hsteps.undeleted (fun m hm => (Move.passes_of_ordinary (hms m hm)).2) fun t ht => ?_
      have hnone := hb.transparency t.key
      rw [Table.find?_of_mem ht] at hnone
      cases hnone
    · obtain ⟨ms, hsteps, hms⟩ := hp.steps
      exact hsteps.undeleted (fun m hm => (hms m hm).2) hL
  cases hc : (storeAfter X cfg es id).chain with
  | none =>
      have hnone : (storeAfter X cfg es id).transparency.find? t.key = none :=
        (hlaw.bare hdel hc).transparency t.key
      rw [Table.find?_of_mem ht] at hnone
      cases hnone
  | some c => exact (hlaw.ledger hdel hc).2 t ht

end Entries

/-! ## The deleting transaction -/

/-- What the deleting transaction records: a filed proof, bound to the first
delete entry of the chain, the answer and the hash of the request. -/
structure Recorded (X : Crypto) (st : Store) (v answer : Json) (d : Deletion) : Prop where
  row : ∃ row, Filed X row d.proof ∧ DeleteEntry st row
  pending : d.completedAt = .null
  outcome : d.outcome = answer
  requestHash : d.requestHash = X.objectHash v

/-- The first delete entry is the delete entry. -/
theorem Noted.deleteEntry {X : Crypto} {digest : String} {te : TransparencyEntry} {c : Chain}
    {st : Store} {tab : Table TransparencyRow TransparencyRow.key}
    (h : Noted X .delete digest none te c tab st.transparency)
    (hfree : ∀ t ∈ tab, t.entry.operation ≠ .delete) :
    DeleteEntry st ⟨c.transparencyId, c.transparencyIndex + 1, te,
      (c.noted X te).transparencyHash⟩ := by
  refine ⟨Table.mem_of_find? ((h.find? _).trans (if_pos rfl)), h.operation, fun t ht hop => ?_⟩
  obtain hold | hnew := h.entries ht
  · exact absurd hop (hfree t hold)
  · exact hnew

theorem delete_records {R : Relay} {auth : Auth} {v : Json} {w w' : Work} {r : Json}
    (h : delete R auth v w = .ok (r, w')) (hlive : w.cell.ledger.Undeleted) :
    ∃ d, w'.cell.store.deletion = some d ∧ Recorded R.crypto w'.cell.store v r d := by
  simp only [delete, bind_ok, lift_ok, check_ok, chain_ok, now_ok, attempt_ok, pure_ok] at h
  obtain ⟨_, _, ⟨-, rfl⟩, authority, _, ⟨-, rfl⟩, ops, w₁, happ, before, _, ⟨rfl, rfl⟩, t, _,
    ⟨-, rfl⟩, noted, w₂, htr, after, _, ⟨rfl, rfl⟩, receipt, _, ⟨hreceipt, rfl⟩, keys, _,
    ⟨-, rfl⟩, _, _, ⟨st, hst, rfl⟩, rfl, rfl⟩ := h
  have hops : Moves R.crypto _ w.cell w₁.cell :=
    collect_moves (.log .admin) (fun _ _ _ _ => append_moves rfl) happ
  have hundeleted : w₁.cell.ledger.Undeleted := hops.steps.undeleted (fun m hm d => by
    obtain ⟨x, -, rfl⟩ := List.mem_map.mp hm
    exact Move.noConfusion) hlive
  obtain ⟨tab, hnoted, hw₂, -⟩ := transparency_ok htr
  split at hst
  · cases hst
  · obtain rfl := Option.some.inj hst
    have hc : w₂.cell.chain = w₁.cell.chain.noted R.crypto noted.1 := by rw [hw₂]
    have ht : w₂.cell.store.transparency = tab := by rw [hw₂]
    rw [← ht] at hnoted
    refine ⟨_, rfl, ⟨⟨⟨w₁.cell.chain.transparencyId, w₁.cell.chain.transparencyIndex + 1, noted.1,
      (w₁.cell.chain.noted R.crypto noted.1).transparencyHash⟩,
      ⟨w₁.cell.chain, w₂.cell.chain, v, _, _, .arr keys.2, authority, t, _, receipt,
        hreceipt, ?_, ?_, ?_, ?_, hnoted.objectHash, rfl⟩, ?_⟩,
      deleteLedger_pending, rfl, rfl⟩⟩
    · rw [hc]
      rfl
    · rw [hc]
      rfl
    · rw [hc]
      rfl
    · rw [hc]
    · exact Noted.deleteEntry hnoted hundeleted

theorem executeTx_deletion {R : Relay} {call : Call} (hroute : call.route = .delete)
    {w w' : Work} {reply : Reply} (h : executeTx R call w = .ok (reply, w'))
    (hlive : w.cell.ledger.Undeleted) :
    ∃ d, w'.cell.store.deletion = some d ∧ reply = .json 202 d.outcome ∧
      Recorded R.crypto w'.cell.store call.value d.outcome d := by
  obtain ⟨-, x, w₁, hwrite, hsave, hreply⟩ := executeTx_write (by rw [hroute]; rfl)
    (by rw [hroute]; simp) (by rw [hroute]; simp) h
  simp only [writeRoute, hroute, bind_ok, pure_ok] at hwrite
  obtain ⟨r, w₂, hdelete, hx, rfl⟩ := hwrite
  obtain ⟨d, hd, hrec⟩ := delete_records hdelete hlive
  have hs := save_ok hsave
  have ht : w'.cell.store.transparency = w₂.cell.store.transparency :=
    congrArg Ledger.transparency hs.ledger
  obtain ⟨row, hfiled, hentry⟩ := hrec.row
  have hrow : DeleteEntry w'.cell.store row := by
    obtain ⟨hstored, hop, honly⟩ := hentry
    rw [← ht] at hstored honly
    exact ⟨hstored, hop, honly⟩
  refine ⟨d, hs.deletion.trans hd, ?_, ⟨⟨row, hfiled, hrow⟩, hrec.pending, rfl,
    hrec.requestHash⟩⟩
  rw [hreply, hx, hrec.outcome]

/-! ## Deleting steps -/

section Steps

variable {X : Crypto} {w : World} {id : String} {ev : Event} {st' : Store}

/-- A deletion is executed in its first step. -/
theorem step_delete {i : Nat} {o : Oracle} {faults : Faults} {call : Call} {v : Json}
    (ht : w.tasks[i]? = some (.start call (.ok v))) (hroute : call.route = .delete) :
    w.step X (.resume i o faults) = w.commit i call.chain
      (stepExecute (w.relay X) (o.sub 2) { call with value := v } (w.store call.chain)) := by
  have hstart : startCheck (w.relay X) call (.ok v) (o.now 0) = .ok { call with value := v } := by
    refine Check.bind_ok.mpr ⟨v, rfl, ?_⟩
    rw [hroute]
    rfl
  have hup : ({ call with value := v } : Call).route.isUpload = false := by
    rw [show ({ call with value := v } : Call).route = .delete from hroute]
    rfl
  show w.stepTask X i o faults = _
  simp only [World.stepTask, ht, World.stepStart, hstart, hup]
  rw [if_neg (by simp), if_neg (by rw [hroute]; simp)]

/-- The step that deletes a chain: the request, its record and its answer. -/
structure Deletes (X : Crypto) (w : World) (id : String) (ev : Event) (d : Deletion) : Prop where
  request : ∃ i o faults call v, ev = .resume i o faults ∧
    w.tasks[i]? = some (.start call (.ok v)) ∧ call.route = .delete ∧ call.chain = id ∧
    Recorded X ((w.step X ev).store id) v d.outcome d ∧
    (w.step X ev).tasks[i]? = some (.erase (.reply (.json 202 d.outcome)))

theorem step_deletes (hlive : (w.store id).deletion = none)
    (hentries : ∀ t ∈ (w.store id).transparency, t.entry.operation ≠ .delete) {d : Deletion}
    (hd : ((w.step X ev).store id).deletion = some d) : Deletes X w id ev d := by
  obtain hn | ⟨i, o, -, faults, call, v, rfl, ht, hroute, rfl, -⟩ :=
    (step_txn X w ev id).deletes hlive
  · rw [hn] at hd
    cases hd
  · refine ⟨i, o, faults, call, v, rfl, ht, hroute, rfl, ?_⟩
    rw [step_delete ht hroute] at hd ⊢
    rw [World.store_commit, if_pos rfl] at hd ⊢
    have hi : ∀ task : Task, (w.commit i call.chain ((stepExecute (w.relay X) (o.sub 2)
        { call with value := v } (w.store call.chain)).1, task)).tasks[i]? = some task := by
      intro task
      obtain ⟨hlt, -⟩ := List.getElem?_eq_some_iff.mp ht
      exact List.getElem?_set_self hlt
    rw [show _ = _ from hi _]
    unfold stepExecute at hd ⊢
    rw [hlive] at hd ⊢
    dsimp only at hd ⊢
    split at hd
    · rename_i reply b hrun
      obtain ⟨x, x', hx, hm, rfl⟩ := run_ok hrun
      have hroute' : ({ call with value := v } : Call).route = .delete := hroute
      obtain ⟨d', hd', hreply, hrec⟩ := executeTx_deletion hroute' hm (by rw [hx]; exact hentries)
      obtain rfl := Option.some.inj (hd'.symm.trans hd)
      rw [if_pos hroute, hreply]
      exact ⟨hrec, rfl⟩
    · rw [hlive] at hd
      cases hd

/-! ## Steps on a deleted chain -/

/-- Entries are only added, and no delete entry is. -/
def entryFrame : Frame Work where
  rel w w' := (∀ t ∈ w.cell.store.transparency, t ∈ w'.cell.store.transparency) ∧
    ∀ t ∈ w'.cell.store.transparency,
      t ∈ w.cell.store.transparency ∨ t.entry.operation ≠ .delete
  refl w := ⟨fun _ h => h, fun _ h => .inl h⟩
  trans h h' := ⟨fun t ht => h'.1 t (h.1 t ht), fun t ht => by
    obtain hold | hnew := h'.2 t ht
    · exact h.2 t hold
    · exact .inr hnew⟩

theorem DeleteEntry.kept {st st' : Store} {row : TransparencyRow} (h : DeleteEntry st row)
    (hold : ∀ t ∈ st.transparency, t ∈ st'.transparency)
    (hnew : ∀ t ∈ st'.transparency, t ∈ st.transparency ∨ t.entry.operation ≠ .delete) :
    DeleteEntry st' row :=
  ⟨hold _ h.stored, h.operation, fun t ht hop => h.only t ((hnew t ht).resolve_right
    fun hne => hne hop) hop⟩

theorem transparency_entries (X : Crypto) {op : Operation} (hop : op ≠ .delete) (digest : String)
    (seq : Option Nat) (code : Option Code) :
    Keeps entryFrame (transparency X op digest seq code) := by
  intro w r w' h
  obtain ⟨tab, hn, hw, -⟩ := transparency_ok h
  have ht : w'.cell.store.transparency = tab := by rw [hw]
  rw [← ht] at hn
  refine ⟨fun t ht => Table.mem_of_find? (hn.grows (Table.find?_of_mem ht)), fun t ht => ?_⟩
  obtain hold | rfl := hn.entries ht
  · exact .inl hold
  · exact .inr fun he => hop (hn.operation.symm.trans he)

theorem auditReject_entries (R : Relay) (objects : List Json) (code : Code) :
    Keeps entryFrame (auditReject R objects code) := by
  refine .bind (.each (fun _ => .bind (transparency_entries _ (by simp) _ _ _) fun _ => .pure _) _)
    fun _ w u w' h => ?_
  have ht : w'.cell.store.transparency = w.cell.store.transparency :=
    congrArg Ledger.transparency (save_ok h).ledger
  exact ⟨fun t hold => ht ▸ hold, fun t hnew => .inl (ht ▸ hnew)⟩

/-- What an entry-keeping program on the chain leaves of a delete entry. -/
theorem entries_of_run {α : Type} {m : Tx α} (hm : Keeps entryFrame m) {o : Oracle} {st : Store}
    {x : α} {b : Cell} (h : m.run o st = .ok (x, b)) {row : TransparencyRow}
    (hrow : DeleteEntry st row) : DeleteEntry b.store row := by
  obtain ⟨y, y', hy, hrun, rfl⟩ := run_ok h
  obtain ⟨hold, hnew⟩ := hm y x y' hrun
  rw [hy] at hold hnew
  exact hrow.kept hold hnew

theorem stepItemAudit_entries {R : Relay} {o : Oracle} {faults : Faults} {call : Call}
    {p : Progress} {r : Json} {e : ApiError} {st : Store} {row : TransparencyRow}
    (hrow : DeleteEntry st row) : DeleteEntry (stepItemAudit R o faults call p r e st).1 row := by
  unfold stepItemAudit
  split
  · exact hrow
  · split
    · exact hrow
    · split
      · exact hrow
      · rename_i hrun
        exact entries_of_run (auditReject_entries R _ _) hrun hrow

theorem stepAudit_entries {R : Relay} {o : Oracle} {call : Call} {e : ApiError} {st : Store}
    {row : TransparencyRow} (hrow : DeleteEntry st row) :
    DeleteEntry (stepAudit R o call e st).1 row := by
  unfold stepAudit
  split
  · exact hrow
  · split
    · exact hrow
    · rename_i hrun
      exact entries_of_run (auditReject_entries R _ _) hrun hrow

theorem expire_versions : Leaves (fun w : Work => w.cell.store.deleteVersions) expire :=
  .bind (fun _ _ _ h => by rw [chain_silent _ _ _ h]) fun _ =>
    .bind (fun _ _ _ h => by rw [now_silent _ _ _ h]) fun _ =>
    .bind (fun _ _ _ h => by rw [look_silent _ _ _ _ h]) fun _ =>
    .each (fun _ w _ w' h => by rw [setStore_ok.mp h]; rfl) _

theorem expireStore_versions {R : Relay} {o : Oracle} {t : Nat} {st st' : Store}
    (h : World.expireStore R o t st = .ok st') : st'.deleteVersions = st.deleteVersions := by
  unfold World.expireStore at h
  split at h
  · rw [Except.ok.inj h]
  · split at h
    · rw [Except.ok.inj h]
    · obtain ⟨⟨u, b⟩, hrun, h⟩ := Check.bind_ok.mp h
      obtain rfl := Check.pure_ok.mp h
      obtain ⟨w, w', hw, rfl, he⟩ := run_leaves
        (f := fun w : Work => w.cell.store.deleteVersions)
        (.bind expire_versions fun _ => fun _ _ _ h => by rw [check_silent _ _ _ _ h]) hrun
      rw [hw] at he
      exact he

/-- A step on a deleted chain adds no delete entry, and writes the deletion
and its versions in a completion only. -/
theorem Txn.documented (h : Txn X w id ev st') (hd : (w.store id).deletion.isSome) :
    (∀ {row}, DeleteEntry (w.store id) row → DeleteEntry st' row) ∧
      ((st'.deletion = (w.store id).deletion ∧
          st'.deleteVersions = (w.store id).deleteVersions) ∨
        ∃ t, (w.store id).finish X t = .ok st') := by
  have hlive : (w.store id).deletion ≠ none := fun hn => by
    rw [hn] at hd
    cases hd
  have same : ∀ {st'}, st' = w.store id →
      (∀ {row}, DeleteEntry (w.store id) row → DeleteEntry st' row) ∧
        ((st'.deletion = (w.store id).deletion ∧
          st'.deleteVersions = (w.store id).deleteVersions) ∨
        ∃ t, (w.store id).finish X t = .ok st') := fun he => by
    subst he
    exact ⟨fun h => h, .inl ⟨rfl, rfl⟩⟩
  have unwitnessed : ∀ {st' : Store}, st'.unwitnessed = (w.store id).unwitnessed →
      st'.deletion = (w.store id).deletion ∧
        st'.deleteVersions = (w.store id).deleteVersions := fun {st'} he => by
    have hdel : st'.unwitnessed.deletion = (w.store id).unwitnessed.deletion := by rw [he]
    have hver : st'.unwitnessed.deleteVersions = (w.store id).unwitnessed.deleteVersions := by
      rw [he]
    exact ⟨hdel, hver⟩
  cases h with
  | kept => exact same rfl
  | executed _ _ =>
      obtain he | hc := stepExecute_commit _ _ _ _
      · exact same he
      · exact absurd hc.live hlive
  | item _ _ _ =>
      obtain he | hc := stepItem_commit _ _ _ _ _ _ _ _
      · exact same he
      · exact absurd hc.live hlive
  | itemAudit _ _ =>
      exact ⟨stepItemAudit_entries, .inl (unwitnessed (stepItemAudit_unwitnessed _ _ _ _ _ _ _ _))⟩
  | audit _ _ => exact ⟨stepAudit_entries, .inl (unwitnessed (stepAudit_unwitnessed _ _ _ _ _))⟩
  | erased _ =>
      have hsame : (w.store id).erase.transparency = (w.store id).transparency ∧
          (w.store id).erase.deletion = (w.store id).deletion ∧
          (w.store id).erase.deleteVersions = (w.store id).deleteVersions := by
        unfold Store.erase
        split <;> exact ⟨rfl, rfl, rfl⟩
      exact ⟨fun hrow => hrow.kept (fun t ht => hsame.1 ▸ ht) fun t ht => .inl (hsame.1 ▸ ht),
        .inl hsame.2⟩
  | finished _ h =>
      have ht := (Store.finish_frozen h).transparency
      exact ⟨fun hrow => hrow.kept (fun t hold => ht ▸ hold) fun t hnew => .inl (ht ▸ hnew),
        .inr ⟨_, h⟩⟩
  | notice _ h => exact same (noticeStore_deleted hd h)
  | enrollment _ h => exact absurd (enrollmentCandidate_live h) hlive
  | expired h =>
      obtain ⟨hf, hdel⟩ := expireStore_frozen h
      have ht := hf.transparency
      exact ⟨fun hrow => hrow.kept (fun t hold => ht ▸ hold) fun t hnew => .inl (ht ▸ hnew),
        .inl ⟨hdel, expireStore_versions h⟩⟩

end Steps

/-! ## The law of deletions -/

/-- Where a deletion with the filed proof `p` stands: it is pending, or was
completed once and `p` is kept. -/
inductive Standing (X : Crypto) (p : Json) (d : Deletion) (st : Store) : Prop where
  | pending : d.proof = p → d.completedAt = .null → st.deleteVersions.rows = [] →
      Standing X p d st
  | completed {t} : completedProof X p t = .ok d.proof →
      st.deleteVersions.rows = [⟨s (p.get "ledger") "receipt_hash", p⟩] → Standing X p d st

/-- A deletion is documented; a chain that is not deleted has no versions of one. -/
def Store.Documented (X : Crypto) (st : Store) : Prop :=
  match st.deletion with
  | none => st.deleteVersions.rows = []
  | some d => ∃ row p, Filed X row p ∧ DeleteEntry st row ∧ Standing X p d st

theorem Store.Documented.deleted {X : Crypto} {st : Store} {d : Deletion} (h : st.Documented X)
    (hd : st.deletion = some d) :
    ∃ row p, Filed X row p ∧ DeleteEntry st row ∧ Standing X p d st := by
  unfold Store.Documented at h
  rw [hd] at h
  exact h

theorem Store.Documented.live {X : Crypto} {st : Store} (h : st.Documented X)
    (hd : st.deletion = none) : st.deleteVersions.rows = [] := by
  unfold Store.Documented at h
  rw [hd] at h
  exact h

theorem Filed.consistent_standing {X : Crypto} {st : Store} {row : TransparencyRow} {p : Json}
    {d : Deletion} (hf : Filed X row p) (hrow : DeleteEntry st row) (h : Standing X p d st) :
    Consistent X st d.proof := by
  cases h with
  | pending he _ _ => exact he ▸ hf.consistent hrow
  | completed hc _ => exact hf.completed hrow hc

theorem Filed.completedAt {X : Crypto} {row : TransparencyRow} {p : Json} {d : Deletion} {t : Nat}
    (hf : Filed X row p) (hc : completedProof X p t = .ok d.proof) : d.completedAt = .num t :=
  (hf.completion hc).1.completed

/-- What the second transaction of a completion does to a deleted chain. -/
theorem finish_ok_deleted {X : Crypto} {t : Nat} {st st' : Store} {d : Deletion}
    (hd : st.deletion = some d) (h : st.finish X t = .ok st') :
    st' = st ∨ d.completedAt = .null ∧ ∃ proof, completedProof X d.proof t = .ok proof ∧
      st'.deletion = some { d with proof } ∧
      st'.deleteVersions = st.deleteVersions.insertIgnore
        ⟨s (d.proof.get "ledger") "receipt_hash", d.proof⟩ := by
  rw [Store.finish, hd] at h
  rcases Check.ite_ok.mp h with ⟨hnull, h⟩ | ⟨-, h⟩
  · obtain ⟨proof, hproof, h⟩ := Check.bind_ok.mp h
    obtain rfl := Check.pure_ok.mp h
    refine .inr ⟨?_, proof, hproof, rfl, rfl⟩
    cases hc : d.completedAt with
    | null => rfl
    | bool _ | num _ | str _ | arr _ | obj _ =>
        rw [hc] at hnull
        cases hnull
  · exact .inl (Except.ok.inj h).symm

theorem rows_insertIgnore_nil {tab : Table DeleteVersionRow DeleteVersionRow.receiptHash}
    (h : tab.rows = []) (row : DeleteVersionRow) : (tab.insertIgnore row).rows = [row] := by
  unfold Table.insertIgnore Table.insert?
  rw [dif_neg (by rw [h]; simp)]
  show tab.rows ++ [row] = [row]
  rw [h]
  rfl

section Law

variable {X : Crypto} {cfg : RelayConfig} {id : String}

/-- Every deletion is documented at any time. -/
theorem documented_after (X : Crypto) (cfg : RelayConfig) (es : List Event) (id : String) :
    (storeAfter X cfg es id).Documented X := by
  induction es using List.reverseRecOn with
  | nil => rfl
  | append_singleton es ev ih =>
      have hstep := storeAfter_snoc X cfg es ev id
      cases hd : (storeAfter X cfg es id).deletion with
      | none =>
          have hversions := (hstep.accrues hd).deletions
          cases hd' : (storeAfter X cfg (es ++ [ev]) id).deletion with
          | none =>
              unfold Store.Documented
              rw [hd', hversions]
              exact ih.live hd
          | some d =>
              have hd'' := hd'
              rw [storeAfter, after_snoc] at hd''
              obtain ⟨i, o, faults, call, v, -, -, -, -, hrec, -⟩ :=
                (step_deletes hd (fun t => live_undeleted X cfg es id hd) hd'').request
              obtain ⟨row, hfiled, hrow⟩ := hrec.row
              rw [← after_snoc] at hrow
              unfold Store.Documented
              rw [hd']
              refine ⟨row, d.proof, hfiled, hrow, .pending rfl hrec.pending ?_⟩
              rw [hversions]
              exact ih.live hd
      | some d =>
          obtain ⟨row, p, hfiled, hrow, hstanding⟩ := ih.deleted hd
          obtain ⟨hentry, ⟨hsame, hversions⟩ | ⟨t, hfin⟩⟩ := hstep.documented (by rw [hd]; rfl)
          · unfold Store.Documented
            rw [hsame, hd]
            refine ⟨row, p, hfiled, hentry hrow, ?_⟩
            cases hstanding with
            | pending he hp hr => exact .pending he hp (hversions ▸ hr)
            | completed hc hr => exact .completed hc (hversions ▸ hr)
          · obtain he | ⟨hp, proof, hproof, hd', hv⟩ := finish_ok_deleted hd hfin
            · rw [he]
              exact ih
            · unfold Store.Documented
              rw [hd']
              cases hstanding with
              | pending he _ hr =>
                  subst he
                  refine ⟨row, _, hfiled, hentry hrow, .completed hproof ?_⟩
                  rw [hv]
                  exact rows_insertIgnore_nil hr _
              | completed hc _ =>
                  rw [hfiled.completedAt hc] at hp
                  cases hp

/-- What becomes of the deletion `d`: it stays, or is completed, once, its
proof of before the completion being kept. -/
inductive Completing (X : Crypto) (d : Deletion) (st : Store) : Prop where
  | same : st.deletion = some d → Completing X d st
  | completed {t proof} : d.completedAt = .null → completedProof X d.proof t = .ok proof →
      Completes d.proof proof t → st.deletion = some { d with proof } →
      st.deleteVersions.rows = [⟨s (d.proof.get "ledger") "receipt_hash", d.proof⟩] →
      Completing X d st

theorem completing_after {es : List Event} {d : Deletion}
    (hd : (storeAfter X cfg es id).deletion = some d) (es' : List Event) :
    Completing X d (storeAfter X cfg (es ++ es') id) := by
  induction es' using List.reverseRecOn with
  | nil => exact .same (by rw [List.append_nil]; exact hd)
  | append_singleton es' ev ih =>
      rw [← List.append_assoc]
      have hstep := storeAfter_snoc X cfg (es ++ es') ev id
      have hlaw := documented_after X cfg (es ++ es') id
      cases ih with
      | same hd' =>
          obtain ⟨-, ⟨hsame, -⟩ | ⟨t, hfin⟩⟩ := hstep.documented (by rw [hd']; rfl)
          · exact .same (hsame.trans hd')
          · obtain he | ⟨hp, proof, hproof, hdel, hv⟩ := finish_ok_deleted hd' hfin
            · exact .same (he ▸ hd')
            · obtain ⟨row, p, hfiled, -, hstanding⟩ := hlaw.deleted hd'
              cases hstanding with
              | pending he _ hr =>
                  subst he
                  refine .completed hp hproof (hfiled.completion hproof).1 hdel ?_
                  rw [hv]
                  exact rows_insertIgnore_nil hr _
              | completed hc _ =>
                  rw [hfiled.completedAt hc] at hp
                  cases hp
      | @completed t proof hp hproof hcompletes hd' hr =>
          have hdone : ({ d with proof } : Deletion).completedAt = .num t := hcompletes.completed
          obtain ⟨-, ⟨hsame, hversions⟩ | ⟨t', hfin⟩⟩ := hstep.documented (by rw [hd']; rfl)
          · exact .completed hp hproof hcompletes (hsame.trans hd') (hversions ▸ hr)
          · obtain he | ⟨hp', -⟩ := finish_ok_deleted hd' hfin
            · exact .completed hp hproof hcompletes (he ▸ hd') (he ▸ hr)
            · rw [hdone] at hp'
              cases hp'

/-- A repetition of the deleting request is answered as the first one was. -/
theorem delete_repeated {w : World} {d : Deletion} (hd : (w.store id).deletion = some d) {i : Nat}
    {o : Oracle} {faults : Faults} {call : Call} {v : Json}
    (ht : w.tasks[i]? = some (.start call (.ok v))) (hroute : call.route = .delete)
    (hid : call.chain = id) (hhash : d.requestHash = X.objectHash v) :
    (w.step X (.resume i o faults)).tasks[i]? = some (.done (.json 202 d.outcome)) := by
  subst hid
  rw [step_delete ht hroute]
  obtain ⟨hlt, -⟩ := List.getElem?_eq_some_iff.mp ht
  refine (List.getElem?_set_self hlt).trans ?_
  have hreply : deletedReply X d { call with value := v } = .ok (.json 202 d.outcome) := by
    unfold deletedReply
    rw [if_neg (by rw [hroute]; simp), if_pos ⟨hroute, hhash⟩]
    rfl
  unfold stepExecute
  rw [hd]
  dsimp only
  rw [show (World.relay X w).crypto = X from rfl, hreply]

end Law

/-! ## Evidence through completion -/

/-- The evidence of a deleted chain is consistent at any time. One step of the
run deleted the chain; its record is the current one, up to one completion,
which sets the time and what is derived from it and keeps the earlier proof.
From then on the same holds of the current record, and a repetition of the
deleting request gets the answer the first one got. -/
theorem deletion_evidence (X : Crypto) (cfg : RelayConfig) (es : List Event) (id : String)
    {d : Deletion} (hd : (storeAfter X cfg es id).deletion = some d) :
    Consistent X (storeAfter X cfg es id) d.proof ∧
    (∃ es₁ ev es₂ d₀, es = es₁ ++ ev :: es₂ ∧ Deletes X (World.after X cfg es₁) id ev d₀ ∧
      Completing X d₀ (storeAfter X cfg es id)) ∧
    (∀ es', Completing X d (storeAfter X cfg (es ++ es') id)) ∧
    ∀ i o faults call v, (World.after X cfg es).tasks[i]? = some (.start call (.ok v)) →
      call.route = .delete → call.chain = id → d.requestHash = X.objectHash v →
      (World.after X cfg (es ++ [.resume i o faults])).tasks[i]? =
        some (.done (.json 202 d.outcome)) := by
  refine ⟨?_, ?_, completing_after hd, fun i o faults call v ht hroute hid hhash => ?_⟩
  · obtain ⟨row, p, hfiled, hrow, hstanding⟩ := (documented_after X cfg es id).deleted hd
    exact hfiled.consistent_standing hrow hstanding
  · have hsome : ((run (World.step X) (.initial cfg) es).store id).deletion.isSome :=
      Option.isSome_of_eq_some hd
    have hinit : ¬((World.initial cfg).store id).deletion.isSome := Bool.false_ne_true
    obtain ⟨es₁, ev, es₂, rfl, hnot, hturn⟩ :=
      run_turns (P := fun w : World => (w.store id).deletion.isSome) hinit hsome
    obtain ⟨d₀, hd₀⟩ := Option.isSome_iff_exists.mp hturn
    have hlive : (storeAfter X cfg es₁ id).deletion = none :=
      Option.not_isSome_iff_eq_none.mp hnot
    refine ⟨es₁, ev, es₂, d₀, rfl,
      step_deletes hlive (fun t => live_undeleted X cfg es₁ id hlive) hd₀, ?_⟩
    have hd₁ : (storeAfter X cfg (es₁ ++ [ev]) id).deletion = some d₀ := by
      rw [storeAfter, after_snoc]
      exact hd₀
    have hlater := completing_after hd₁ es₂
    rw [List.append_assoc, List.singleton_append] at hlater
    exact hlater
  · rw [after_snoc]
    exact delete_repeated hd ht hroute hid hhash

/-- A deletion that ran to its completion. -/
theorem deletion_evidence_run : ∃ d,
    (storeAfter Sample.crypto Sample.cfg (Sample.deletionStart ++ Sample.deletionRest)
      Sample.chainId).deletion = some d ∧
    d.completedAt.isNull = false ∧
    Consistent Sample.crypto (storeAfter Sample.crypto Sample.cfg
      (Sample.deletionStart ++ Sample.deletionRest) Sample.chainId) d.proof := by
  have hdone := (Bool.and_eq_true_iff.mp Sample.deletionRun_facts).2
  obtain ⟨d, hd, hnull⟩ := (Option.any_eq_true _ _).mp hdone
  exact ⟨d, hd, by simpa using hnull,
    (deletion_evidence Sample.crypto Sample.cfg _ Sample.chainId hd).1⟩

end PallaSync
