import PallaSync.Artifacts
import PallaSync.Replay

/-!
# No recovery artifact is stored

Whatever a request stores has been scanned: an object before it is put into
the tables, the parameters and the epoch before they are in the chain row, the
token of a request before the request is executed. `Screened` says of a
program that it keeps a public store public; the rules follow the programs,
and the checks a program makes say which of its values are public.
-/

namespace PallaSync

open Atomic Machine

/-! ## Programs -/

/-- The store and the working copy are public. -/
structure Work.Public (w : Work) : Prop where
  store : w.cell.store.Public
  chain : w.cell.chain.Public

/-- A program that keeps public what is, with an answer that has `P`. -/
abbrev Screened {α : Type} (P : α → Prop) (m : Tx α) : Prop := Maintains Work.Public P m

section Programs

variable {α : Type} (X : Crypto) (R : Relay)

theorem screened_now : Screened (fun _ => True) now := fun _ _ _ hs h => by
  obtain ⟨-, rfl⟩ := now_ok.mp h
  exact ⟨⟨hs.store, hs.chain⟩, trivial⟩

theorem screened_newId : Screened (fun _ => True) newId := fun _ _ _ hs h => by
  obtain ⟨-, rfl⟩ := newId_ok.mp h
  exact ⟨⟨hs.store, hs.chain⟩, trivial⟩

theorem screened_chain : Screened Chain.Public chain := fun _ _ _ hs h => by
  obtain ⟨rfl, rfl⟩ := chain_ok.mp h
  exact ⟨hs, hs.chain⟩

theorem screened_look (f : Store → α) :
    Screened (fun x => ∃ st : Store, st.Public ∧ x = f st) (look f) := fun _ _ _ hs h => by
  obtain ⟨rfl, rfl⟩ := look_ok.mp h
  exact ⟨hs, _, hs.store, rfl⟩

theorem screened_check (f : Store → Chain → Except ApiError α) :
    Screened (fun x => ∃ st c, st.Public ∧ c.Public ∧ f st c = .ok x) (check f) :=
  fun _ _ _ hs h => by
    obtain ⟨hf, rfl⟩ := check_ok.mp h
    exact ⟨hs, _, _, hs.store, hs.chain, hf⟩

theorem screened_setStore {f : Store → Store} (hf : ∀ st, st.Public → (f st).Public) :
    Screened (fun _ => True) (setStore f) := fun _ _ _ hs h => by
  obtain rfl := setStore_ok.mp h
  exact ⟨⟨hf _ hs.store, hs.chain⟩, trivial⟩

theorem screened_setChain {f : Chain → Chain} (hf : ∀ c, c.Public → (f c).Public) :
    Screened (fun _ => True) (setChain f) := fun _ _ _ hs h => by
  obtain rfl := setChain_ok.mp h
  exact ⟨⟨hs.store, hf _ hs.chain⟩, trivial⟩

theorem screened_attempt {f : Store → Option Store}
    (hf : ∀ st st', st.Public → f st = some st' → st'.Public) :
    Screened (fun _ => True) (attempt f) := fun _ _ _ hs h => by
  obtain ⟨st, hst, rfl⟩ := attempt_ok.mp h
  exact ⟨⟨hf _ _ hs.store hst, hs.chain⟩, trivial⟩

/-- A row of a table of the relay's own. -/
theorem screened_attempt_own {β : Type} {x : Store → Option β} {g : Store → β → Store}
    (hg : ∀ st b, (g st b).clients = st.clients) :
    Screened (fun _ => True) (attempt fun st => (x st).map (g st)) :=
  screened_attempt fun st st' h hst => by
    obtain ⟨b, -, rfl⟩ := Option.map_eq_some_iff.mp hst
    exact h.congr (hg st b)

theorem putObject_screened {kind : Kind} {v : Json} (hv : v.Public)
    (log : Option (String × Nat)) : Screened (fun _ => True) (putObject X kind v log) := by
  intro w x w' hs h
  obtain ⟨-, rfl, -⟩ | ⟨-, -, -, tab, htab, rfl⟩ := putObject_ok h
  · exact ⟨hs, trivial⟩
  · refine ⟨⟨{ hs.store with objects := fun r hr body hbody => ?_ }, hs.chain⟩, trivial⟩
    obtain hr | rfl := Table.mem_of_find?_insert htab hr
    · exact hs.store.objects r hr body hbody
    · exact Option.some.inj hbody ▸ hv

theorem adopt_screened (kind : Kind) (id logId : String) (seq : Nat) :
    Screened (fun _ => True) (adopt kind id logId seq) := by
  refine screened_setStore fun st h => { h with objects := ?_ }
  refine Table.forall_update ?_ h.objects fun r hr => hr
  exact fun _ => rfl

theorem transparency_screened (op : Operation) (digest : String) (seq : Option Nat)
    (code : Option Code) : Screened (fun _ => True) (transparency X op digest seq code) :=
  .bind screened_chain fun _ _ => .bind (.failIf _ _) fun _ _ => .bind screened_now fun _ _ =>
    .bind (.require _ _) fun _ _ => .bind (screened_attempt_own fun _ _ => rfl) fun _ _ =>
    .bind (screened_setChain fun _ h => ⟨h.parameters, h.epoch⟩) fun _ _ => .pure trivial

theorem makeReceipt_screened (v : Json) (seq : Option Nat) (entryHash : Option String)
    (previous : String) (received : Nat) (hash : String) :
    Screened (fun _ => True) (makeReceipt X v seq entryHash previous received hash) :=
  .bind screened_chain fun _ _ => .bind screened_newId fun _ _ => .bind (.require _ _) fun _ _ =>
    .pure trivial

theorem storeReceipt_screened (kind : Kind) (id : String) (r : Receipt) :
    Screened (fun _ => True) (storeReceipt kind id r) :=
  .bind screened_chain fun _ _ => .bind (screened_look _) fun _ _ => .bind (.failIf _ _) fun _ _ =>
    screened_attempt_own fun _ _ => rfl

/-- An accepted object is answered with its entry, or with the one it has. -/
theorem append_screened {kind : Kind} {v : Json} (hv : v.Public) :
    Screened (fun x => ∀ e, x.1 = some e → e.toJson.Public) (append X kind v) := by
  refine .bind (screened_check _) fun before hbefore => ?_
  cases before with
  | some original =>
      refine .pure fun e he => ?_
      obtain ⟨st, c, hst, -, h⟩ := hbefore
      simp only [accepted?] at h
      split at h
      · cases h
      · split at h
        · cases h
        · split at h
          · cases h
          · split at h
            · cases h
            · rename_i row hrow
              obtain rfl := Option.some.inj (Except.ok.inj h)
              exact hst.log row (Table.mem_of_find? hrow) e he
  | none =>
      refine .bind screened_chain fun c _ => .bind (.failIf _ _) fun _ _ =>
        .bind screened_now fun received _ => .bind (putObject_screened X hv _) fun _ _ =>
        .bind (adopt_screened _ _ _ _) fun _ _ =>
        .bind (screened_setChain fun _ h => ⟨h.parameters, h.epoch⟩) fun _ _ =>
        .bind (screened_attempt fun st st' h hst => ?_) fun _ _ =>
        .bind (transparency_screened X _ _ _ _) fun _ _ =>
        .bind (makeReceipt_screened X _ _ _ _ _ _) fun _ _ =>
        .bind (storeReceipt_screened _ _ _) fun _ _ => .pure fun e he => ?_
      · obtain ⟨tab, htab, rfl⟩ := Option.map_eq_some_iff.mp hst
        refine { h with log := Table.forall_insert? h.log ?_ htab }
        exact fun e he => Option.some.inj he ▸ logEntry_public hv
      · exact Option.some.inj he ▸ logEntry_public hv

theorem outcomes?_public {st : Store} {scope : OutcomeScope} {id : String}
    {payload response : Json} (hst : st.Public)
    (h : st.outcomes? X scope id payload = .ok (some response)) : response.Public := by
  unfold Store.outcomes? at h
  split at h
  · cases h
  · rename_i row hrow
    split at h
    · cases h
    · exact Option.some.inj (Except.ok.inj h) ▸ hst.outcomes row (Table.mem_of_find? hrow)

theorem screened_silent {m : Tx α} (h : Silent m) : Screened (fun _ => True) m :=
  fun w x w' hs hm => by
    have hcell := h w x w' hm
    exact ⟨⟨hcell ▸ hs.store, hcell ▸ hs.chain⟩, trivial⟩

/-- A read keeps everything but the cursors. -/
theorem screened_reads {m : Tx α} (h : Reads m) : Screened (fun _ => True) m :=
  fun w x w' hs hm => by
    obtain ⟨he, -⟩ := h w x w' hm
    simp only [seen, Store.uncursored, Prod.mk.injEq, Store.mk.injEq] at he
    refine ⟨⟨hs.store.congr ?_, he.2 ▸ hs.chain⟩, trivial⟩
    simp only [Store.clients, he]

theorem snapshotPart_screened {v : Json} (hv : v.Public) :
    Screened (fun _ => True) (snapshotPart X v) :=
  .bind (putObject_screened X hv _) fun _ _ => .ite
    (fun _ => .bind (transparency_screened X _ _ _ _) fun _ _ => .bind screened_chain fun _ _ =>
      .bind screened_now fun _ _ => .bind (makeReceipt_screened X _ _ _ _ _ _) fun _ _ =>
      .bind (storeReceipt_screened _ _ _) fun _ _ => .pure trivial)
    fun _ => .bind (screened_look _) fun _ _ => (Maintains.require _ _).weaken fun _ _ => trivial

theorem save_screened : Screened (fun _ => True) (save R) :=
  .bind screened_chain fun _ hc =>
    .bind (screened_setStore fun _ h => { h with
      chain := fun _ hc' => Option.some.inj hc' ▸ hc }) fun _ _ =>
    .bind screened_now fun _ _ => .bind (.require _ _) fun _ _ =>
    .bind (screened_setStore fun _ h => h.congr rfl) fun _ _ => screened_silent (check_silent _)

theorem publishNotice_screened : Screened (fun _ => True) (publishNotice R) :=
  .bind (screened_look _) fun _ _ => .ite (fun _ => .pure trivial) fun _ =>
    .bind screened_newId fun _ _ => .bind screened_now fun _ _ =>
    .bind (transparency_screened _ _ _ _ _) fun _ _ => screened_setStore fun _ h => h.congr rfl

theorem outcome_screened (scope : OutcomeScope) (id : String) (payload : Json) {response : Json}
    (h : response.Public) : Screened (fun _ => True) (outcome X scope id payload response) :=
  screened_attempt fun st st' hst h' => by
    obtain ⟨tab, htab, rfl⟩ := Option.map_eq_some_iff.mp h'
    exact { hst with outcomes := Table.forall_insert? hst.outcomes h htab }

/-! ## Membership -/

theorem enlist_screened (status : Status) {d : Json} (hd : d.Public) :
    Screened (fun _ => True) (enlist X status d) :=
  .bind (append_screened X hd) fun _ _ => .bind (screened_attempt fun st st' h hst => by
    obtain ⟨tab, -, rfl⟩ := Option.map_eq_some_iff.mp hst
    exact h.congr rfl) fun _ _ => .pure trivial

theorem updateRegistry_screened (p : RegistryRow → Bool) (f : RegistryRow → RegistryRow)
    (hf : ∀ r, (f r).deviceId = r.deviceId) :
    Screened (fun _ => True) (setStore (·.updateRegistry p f hf)) :=
  screened_setStore fun _ h => h.congr rfl

/-- A commit of checked objects is answered with its entry. -/
theorem commitEpoch_screened {commit : EpochCommit} (hepoch : commit.epoch.Public)
    (henv : ∀ e ∈ commit.envelopes, e.Public) (hdev : ∀ d ∈ commit.staged, d.Public)
    (hadmin : ∀ op, commit.admin = some op → op.Public) :
    Screened (fun x => ∀ e, x.1 = some e → e.toJson.Public) (commitEpoch X commit) := by
  refine .bind (.collect fun d hd => enlist_screened X _ ?_) fun _ _ =>
    .bind (.collect fun e he => append_screened X ?_) fun _ _ =>
    .bind (.collect fun op hop => append_screened X ?_) fun _ _ =>
    .bind (append_screened X hepoch) fun r hr =>
    .bind (.each fun id _ => updateRegistry_screened _ _ _) fun _ _ =>
    .bind (screened_setChain fun c hc => ⟨hc.parameters, hepoch⟩) fun _ _ => .pure hr
  · exact hdev d ((List.perm_insertionSort _ _).subset hd)
  · exact henv e ((List.perm_insertionSort _ _).subset he)
  · exact hadmin op (Option.mem_toList.mp hop)

/-- A check of the new chain row says that it is public. -/
theorem setChain_check_screened {β : Type} {P : β → Prop} {f : Chain → Chain}
    {g : Store → Chain → Except ApiError α} {k : α → Tx β}
    (hg : ∀ st c x, g st (f c) = .ok x → (f c).Public)
    (hk : ∀ x, (∃ st c, g st c = .ok x) → Screened P (k x)) :
    Screened P (do setChain f; let x ← check g; k x) := by
  intro w b w' hs h
  obtain ⟨_, w₁, hset, h⟩ := bind_ok.mp h
  obtain ⟨x, w₂, hcheck, h⟩ := bind_ok.mp h
  obtain rfl := setChain_ok.mp hset
  obtain ⟨hx, rfl⟩ := check_ok.mp hcheck
  have hnew : Work.Public { w with cell := { w.cell with chain := f w.cell.chain } } :=
    ⟨hs.store, hg _ _ _ hx⟩
  exact hk x ⟨_, _, hx⟩ _ _ _ hnew h

theorem genesis_screened (v : Json) : Screened (fun _ => True) (genesis R v) := by
  refine .bind (.lift _) fun _ _ => .bind (.lift _) fun _ hp => .bind (.lift _) fun _ _ =>
    .bind (screened_check _) fun before _ => ?_
  cases before with
  | some response => exact .pure trivial
  | none =>
      refine .bind (screened_look _) fun _ _ => .bind (.failIf _ _) fun _ _ =>
        .bind (.failIf _ _) fun _ _ => .bind (.failIf _ _) fun _ _ =>
        .bind screened_newId fun _ _ => .bind screened_newId fun _ _ =>
        .bind screened_newId fun _ _ =>
        setChain_check_screened (fun st c u h => ?_) fun u hcheck => ?_
      · exact ⟨validate_public hp, (genesisCheck_ok h).2.public.1⟩
      · obtain ⟨st, c, hcheck⟩ := hcheck
        obtain ⟨hdevice, hbundle⟩ := genesisCheck_ok hcheck
        refine .bind (append_screened _ (validate_public hp)) fun _ _ =>
          .bind (commitEpoch_screened _ hbundle.public.1 hbundle.public.2 (fun d hd => ?_)
            fun _ hop => by cases hop) fun _ _ =>
          .bind screened_chain fun _ _ => .bind (publishNotice_screened R) fun _ _ =>
          .bind (outcome_screened _ _ _ _ ?_) fun _ _ => .bind (save_screened R) fun _ _ =>
          .pure trivial
        · exact List.mem_singleton.mp hd ▸ validate_public hdevice.valid
        · exact ((result_public _ _).set (public_str _) (by decide)).set
            (receiptsJson_public _) (by decide)

theorem enroll_screened (auth : Auth) (v : Json) (request : Option Json) :
    Screened (fun r => r.2.Public) (enroll R auth v request) := by
  refine .bind (.lift _) fun _ _ => .bind (.lift _) fun _ _ => .bind (screened_check _) fun _ _ =>
    .bind (.lift _) fun _ hd => .bind (screened_check _) fun before hbefore => ?_
  cases before with
  | some response =>
      obtain ⟨st, c, hst, -, h⟩ := hbefore
      exact .pure (outcomes?_public _ hst h)
  | none =>
      refine .bind (screened_check _) fun u hcheck => ?_
      obtain ⟨_, _, -, -, hcheck⟩ := hcheck
      have hresponse : ∀ rs, (Json.obj [("device_id", .str (s (v.get "device_record") "device_id")),
          ("device_record_hash", .str (R.crypto.objectHash (v.get "device_record"))),
          ("status", .str "pending_keys"), ("upload_receipts", receiptsJson rs)]).Public :=
        fun rs => public_members rfl (by simp [receiptsJson_public])
      refine .bind (enlist_screened _ _ (validate_public hd)) fun _ _ =>
        .bind (.collect fun e he => append_screened _
          (enrollmentEnvelopes_public (enrollCheck_ok hcheck).envelopes e he)) fun _ _ =>
        .bind (.collect fun op hop => append_screened _ ?_) fun _ _ =>
        .bind (outcome_screened _ _ _ _ (hresponse _)) fun _ _ => .pure (hresponse _)
      split at hop
      · rename_i hadmin
        exact List.mem_singleton.mp hop ▸ enrollCheck_public hcheck hadmin
      · cases hop

/-- An epoch is answered with its log entry. -/
theorem epoch_screened (auth : Auth) (v : Json) (device : Option String) :
    Screened (fun _ => True) (epoch R auth v device) := by
  refine .bind (.lift _) fun _ _ => .bind (.lift _) fun _ _ =>
    .bind (screened_check _) fun before _ => ?_
  cases before with
  | some response => exact .pure trivial
  | none =>
      refine .bind (screened_check _) fun u hcheck => ?_
      obtain ⟨_, _, -, -, hcheck⟩ := hcheck
      have hop := epochCheck_public hcheck
      have hok := epochCheck_ok hcheck
      refine .bind (commitEpoch_screened _ hok.bundle.public.1 hok.bundle.public.2
        (fun d hd => validate_public (hok.devices d hd).valid) fun op h => ?_) fun r hr =>
        .bind (outcome_screened _ _ _ _ ?_) fun _ _ => .pure trivial
      · split at h
        · cases h
        · exact Option.some.inj h ▸ hop
      · have hentry : (entryJson r.1).Public := entryJson_public hr
        cases device with
        | some id => exact public_members rfl (by simp [hentry, receiptsJson_public])
        | none => exact public_members rfl (by simp [hentry, receiptsJson_public])

/-! ## Offers -/

theorem updateOffer_screened (id : String) {f : OfferRow → OfferRow}
    (hf : ∀ r, (f r).requestId = r.requestId)
    (hpublic : ∀ r : OfferRow, r.offer.Public ∧ (∀ v, r.request = some v → v.Public) →
      (f r).offer.Public ∧ ∀ v, (f r).request = some v → v.Public) :
    Screened (fun _ => True) (setStore (·.updateOffer id f hf)) :=
  screened_setStore fun st h => { h with
    offers := Table.forall_update hf h.offers hpublic
    offerHistory := fun r hr => by
      obtain hr | hr := List.mem_append.mp hr
      · exact h.offerHistory r hr
      · obtain ⟨⟨row, i⟩, hrow, rfl⟩ := List.mem_map.mp hr
        obtain ⟨r', hr', rfl⟩ := List.mem_map.mp (List.fst_mem_of_mem_zipIdx hrow)
        exact hpublic r' (h.offers r' (Table.mem_select.mp hr').1) }

theorem insertOffer_screened {row : OfferRow} (hoffer : row.offer.Public)
    (hrequest : ∀ v, row.request = some v → v.Public) :
    Screened (fun _ => True) (attempt (·.insertOffer row)) :=
  screened_attempt fun st st' h hst => by
    obtain ⟨tab, htab, rfl⟩ := Option.map_eq_some_iff.mp hst
    refine { h with
      offers := Table.forall_insert? h.offers ⟨hoffer, hrequest⟩ htab
      offerHistory := fun r hr => ?_ }
    obtain hr | hr := List.mem_append.mp hr
    · exact h.offerHistory r hr
    · obtain ⟨⟨row', i⟩, hrow, rfl⟩ := List.mem_map.mp hr
      obtain rfl := List.mem_singleton.mp (List.fst_mem_of_mem_zipIdx hrow)
      exact ⟨hoffer, hrequest⟩

theorem offer_screened (auth : Auth) (v : Json) :
    Screened (fun _ => True) (offer R auth v) := by
  refine .bind (.lift _) fun _ hfields => .bind (.failIf _ _) fun _ _ =>
    .bind screened_chain fun c _ => .bind (.failIf _ _) fun _ _ =>
    .bind (screened_check _) fun before _ => ?_
  cases before with
  | some response => exact .pure trivial
  | none =>
      have hnonce : (v.get "offer_nonce").Public :=
        fields_public (f := ("offer_nonce", .bytes 32)) hfields (by simp [offerFields]) rfl
      refine .bind screened_now fun _ _ => .bind (.failIf _ _) fun _ _ =>
        .bind screened_now fun _ _ => .bind (.failIf _ _) fun _ _ =>
        .bind (insertOffer_screened ?_ fun _ h => by cases h) fun _ _ =>
        .bind (outcome_screened _ _ _ _ ?_) fun _ _ => .pure trivial
      · exact public_members rfl (by simp [hnonce])
      · exact public_members rfl (by simp)

theorem enrollmentRequest_screened (v : Json) :
    Screened (fun _ => True) (enrollmentRequest R v) := by
  refine .bind (.lift _) fun _ hv => .bind screened_chain fun _ _ =>
    .bind (screened_look _) fun _ _ => .bind (.require _ _) fun row _ =>
    .bind (.failIf _ _) fun _ _ => .bind screened_now fun _ _ => .bind (.failIf _ _) fun _ _ =>
    .bind screened_now fun _ _ => .bind (.failIf _ _) fun _ _ => .bind screened_now fun _ _ =>
    .bind (.failIf _ _) fun _ _ => .bind (.failIf _ _) fun _ _ =>
    .bind (screened_check _) fun _ _ => .bind (.lift _) fun _ _ => ?_
  cases row.request with
  | some old => exact .bind (.failIf _ _) fun _ _ => .pure trivial
  | none =>
      exact .bind (updateOffer_screened _ _ fun r hr => ⟨hr.1, fun v' h =>
        Option.some.inj h ▸ validate_public (Check.orElse_ok.mp hv)⟩) fun _ _ => .pure trivial

theorem rejectRequest_public {id : String} {request v : Json} {r : Nat × Json}
    (h : rejectRequest X id request v = .ok r) : r.2.Public := by
  obtain ⟨_, -, h⟩ := Check.bind_ok.mp h
  obtain ⟨_, -, h⟩ := Check.bind_ok.mp h
  exact Check.pure_ok.mp h ▸ public_members rfl (by simp)

theorem approve_screened (auth : Auth) (id : String) (v : Json) (reject : Bool) :
    Screened (fun _ => True) (approve R auth id v reject) := by
  refine .bind (screened_look _) fun _ _ => .bind (.require _ _) fun row _ =>
    .bind (.require _ _) fun request _ => .bind (.failIf _ _) fun _ _ =>
    .bind (screened_check _) fun before _ => ?_
  cases before with
  | some response => exact .pure trivial
  | none =>
      refine .bind screened_now fun _ _ => .bind (.failIf _ _) fun _ _ =>
        .bind screened_chain fun _ _ => .bind (.failIf _ _) fun _ _ => ?_
      cases reject with
      | true =>
          exact .bind (.lift _) fun r hr => .bind screened_chain fun _ _ =>
            .bind (updateOffer_screened _ _ fun _ h => h) fun _ _ =>
            .bind (outcome_screened _ _ _ _ (rejectRequest_public _ hr)) fun _ _ => .pure trivial
      | false =>
          exact .bind (enroll_screened R _ _ _) fun r hr => .bind screened_chain fun _ _ =>
            .bind (updateOffer_screened _ _ fun _ h => h) fun _ _ =>
            .bind (outcome_screened _ _ _ _ hr) fun _ _ => .pure trivial

/-! ## Acknowledgement, snapshots and pruning -/

theorem ack_screened (auth : Auth) (id : String) (v : Json) :
    Screened (fun _ => True) (ack R auth id v) :=
  .bind (.lift _) fun _ _ => .bind (.failIf _ _) fun _ _ => .bind screened_chain fun _ _ =>
    .bind (.failIf _ _) fun _ _ => .bind (screened_look _) fun _ _ => .bind (.failIf _ _) fun _ _ =>
    .bind (updateRegistry_screened _ _ _) fun _ _ => .pure trivial

theorem snapshot_screened (v : Json) : Screened (fun _ => True) (snapshot R v) := by
  refine .bind (.lift _) fun _ _ => .bind (.lift _) fun _ hv =>
    .bind (screened_check _) fun before _ => ?_
  cases before with
  | some response => exact .pure trivial
  | none =>
      refine .bind (screened_check _) fun _ _ => .bind (append_screened _ (validate_public hv))
        fun r hr => .bind (outcome_screened _ _ _ _ ?_) fun _ _ => .pure trivial
      have hentry : (entryJson r.1).Public := entryJson_public hr
      exact public_members rfl (by simp [hentry, receiptsJson_public])

theorem removed_public {r : ObjectRow} :
    ∀ v, ({ r with body := none } : ObjectRow).body = some v → v.Public := fun _ h => by cases h

theorem pruneRecords_public {st : Store} (h : st.Public) (logId : String) (through : Nat) :
    (st.pruneRecords logId through).Public := { h with
  objects := Table.forall_update ObjectRow.key_removed h.objects fun _ _ => removed_public
  log := Table.forall_update LogRow.key_removed h.log fun _ _ _ he => by cases he }

theorem expireEpoch_public {st : Store} (h : st.Public) (c : Chain) (epoch : Nat) :
    (st.expireEpoch c epoch).Public := { h with
  objects := Table.forall_update ObjectRow.key_removed h.objects fun _ _ => removed_public
  log := Table.forall_update LogRow.key_removed h.log fun _ _ _ he => by cases he }

theorem expire_screened : Screened (fun _ => True) expire :=
  .bind screened_chain fun _ _ => .bind screened_now fun _ _ => .bind (screened_look _) fun _ _ =>
    .each fun _ _ => screened_setStore fun _ h => expireEpoch_public h _ _

theorem handoff_screened (comp : Json) (through : Nat) :
    Screened (fun _ => True) (handoff comp through) :=
  .bind screened_chain fun _ _ => .ite (fun _ => .pure trivial) fun _ =>
    .bind (screened_look _) fun _ _ => .bind (.each fun _ _ => .bind screened_chain fun _ _ =>
      .bind (screened_look _) fun _ _ => .ite (fun _ => .pure trivial) fun _ =>
      .bind (screened_look _) fun _ _ => .bind (.failIf _ _) fun _ _ =>
      .bind (screened_look _) fun _ _ => .bind (.require _ _) fun _ _ =>
      .bind screened_now fun _ _ => screened_setStore fun _ h => h.congr rfl) fun _ _ =>
    expire_screened

theorem prune_screened (auth : Auth) (v : Json) : Screened (fun _ => True) (prune R auth v) := by
  refine .bind (.lift _) fun _ _ => .bind (.lift _) fun _ hfields =>
    .bind (screened_check _) fun before _ => ?_
  cases before with
  | some response => exact .pure trivial
  | none =>
      refine .bind (screened_check _) fun comp hcheck => ?_
      obtain ⟨_, _, -, -, hcheck⟩ := hcheck
      have hid : (v.get "compaction_id").Public :=
        fields_public (f := ("compaction_id", .uuid)) hfields (by simp [pruneFields]) rfl
      refine .bind (append_screened _ (pruneCheck_public hcheck)) fun _ _ =>
        .bind screened_chain fun _ _ =>
        .bind (screened_setStore fun _ h => pruneRecords_public h _ _) fun _ _ =>
        .bind (screened_setChain fun _ h => ⟨h.parameters, h.epoch⟩) fun _ _ =>
        .bind (handoff_screened _ _) fun _ _ =>
        .bind (transparency_screened _ _ _ _ _) fun _ _ =>
        .bind (outcome_screened _ _ _ _ ?_) fun _ _ => .pure trivial
      exact public_members rfl (by simp [hid])

/-! ## Deletion -/

theorem delete_screened (auth : Auth) (v : Json) (htoken : auth.token.Public) :
    Screened (fun _ => True) (delete R auth v) := by
  refine .bind (.lift _) fun _ hfields => .bind (screened_check _) fun authority hauthority => ?_
  obtain ⟨_, _, -, -, hauthority⟩ := hauthority
  obtain ⟨hop, hnull⟩ := deleteAuthority_public hauthority
  have hid : (v.get "deletion_id").Public :=
    fields_public (f := ("deletion_id", .uuid)) hfields (by simp [deleteFields]) rfl
  have hauth : (if auth.admin then Json.null else deviceAuthorization auth v).Public := by
    split
    · exact public_null
    · rename_i hadmin
      exact deviceAuthorization_public htoken
        (deleteRequest_public hfields (hnull (Bool.eq_false_iff.mpr hadmin)))
  refine .bind (.collect fun op' hop' => append_screened _ ?_) fun authorized _ =>
    .bind screened_chain fun c _ => .bind screened_now fun t _ =>
    .bind (transparency_screened _ _ _ _ _) fun entry _ => .bind screened_chain fun c' hc' =>
    .bind (.lift _) fun receipt hreceipt => .bind (screened_check _) fun device hdevice =>
    .bind (screened_attempt fun st st' h hst => ?_) fun _ _ => .pure trivial
  · split at hop'
    · exact List.mem_singleton.mp hop' ▸ hop
    · cases hop'
  · have hledger := deleteLedger_public R.crypto c hid authority t (t + R.cfg.activeDeleteMaxMs)
    have hreceipt := deleteReceipt_public hledger hreceipt
    obtain ⟨st₀, -, hst₀, -, hdevice⟩ := hdevice
    have hcerts := public_arr.mpr (hst₀.deletingDevice hdevice)
    split at hst
    · cases hst
    · obtain rfl := Option.some.inj hst
      refine { h with deletion := fun d hd => ?_ }
      obtain rfl := Option.some.inj hd
      refine ⟨public_members rfl ?_, public_members rfl ?_⟩
      · simp only [List.forall_mem_cons]
        exact ⟨hop, hreceipt, transparencyEntry_public _, hauth, hcerts, hc'.epoch, hledger,
          hc'.parameters, fun _ hmem => absurd hmem List.not_mem_nil⟩
      · simp [hreceipt, hid, hledger.get, receiptsJson_public]

/-! ## Imports -/

theorem stageDevice_screened (key : String) {d : Json} (hd : d.Public) :
    Screened (fun _ => True) (stageDevice X key d) :=
  .bind (.lift _) fun _ _ => .bind (.lift _) fun _ _ =>
    .bind (putObject_screened X hd _) fun _ _ => .pure trivial

/-- What is left over is among what there was. -/
theorem resolvePass_screened (admin : String) {ds : List Json} (hds : ∀ d ∈ ds, d.Public)
    (verified : List (String × Json)) :
    Screened (fun r => ∀ d ∈ r.1, d.Public) (resolvePass X admin ds verified) := by
  induction ds generalizing verified with
  | nil => exact .pure fun d hd => absurd hd List.not_mem_nil
  | cons d ds ih =>
      obtain ⟨hd, hds⟩ := List.forall_mem_cons.mp hds
      refine .bind (screened_check _) fun key _ => ?_
      cases key with
      | some key => exact .bind (stageDevice_screened X key hd) fun _ _ => ih hds _
      | none =>
          exact .bind (ih hds _) fun r hr => .pure (List.forall_mem_cons.mpr ⟨hd, hr⟩)

theorem resolveDevices_screened (admin : String) (fuel : Nat) {ds : List Json}
    (hds : ∀ d ∈ ds, d.Public) (verified : List (String × Json)) :
    Screened (fun _ => True) (resolveDevices X admin fuel ds verified) := by
  induction fuel generalizing ds verified with
  | zero =>
      cases ds with
      | nil => exact .pure trivial
      | cons d ds => exact .throw _
  | succ fuel ih =>
      cases ds with
      | nil => exact .pure trivial
      | cons d ds =>
          exact .bind (resolvePass_screened X admin hds verified) fun r hr =>
            .bind (.failIf _ _) fun _ _ => ih hr _

theorem stageObjects_screened (admin : String) {v : Json}
    (hv : ∀ k ∈ importKinds, ∀ obj ∈ a v k.2, obj.Public) :
    Screened (fun _ => True) (stageObjects X admin v) := by
  simp only [importKinds, List.forall_mem_cons] at hv
  obtain ⟨hparameters, hepochs, hdevices, henvelopes, hcompactions, -⟩ := hv
  refine .bind (.each fun p hp => ?_) fun _ _ =>
    .bind (resolveDevices_screened X admin _ hdevices _) fun _ _ =>
    .bind (.each fun e he => ?_) fun _ _ => .bind (.each fun e he => ?_) fun _ _ =>
    .each fun comp hcomp => ?_
  · exact .bind (.failIf _ _) fun _ _ => .bind (.lift _) fun _ _ =>
      .bind (screened_look _) fun _ _ => .bind (.failIf _ _) fun _ _ =>
      .bind (putObject_screened X (hparameters p hp) _) fun _ _ => .pure trivial
  · exact .bind (screened_look _) fun _ _ => .bind (.failIf _ _) fun _ _ =>
      .bind (screened_check _) fun _ _ => .bind (.lift _) fun _ _ =>
      .bind (screened_look _) fun _ _ => .bind (.failIf _ _) fun _ _ =>
      .bind (putObject_screened X (hepochs e he) _) fun _ _ => .pure trivial
  · exact .bind (screened_check _) fun _ _ => .bind (screened_check _) fun _ _ =>
      .bind (.lift _) fun _ _ => .bind (putObject_screened X (henvelopes e he) _) fun _ _ =>
      .pure trivial
  · exact .bind (screened_look _) fun _ _ => .bind (.require _ _) fun _ _ =>
      .bind (.lift _) fun _ _ => .bind (putObject_screened X (hcompactions comp hcomp) _)
        fun _ _ => .pure trivial

theorem getLastD_public {items : List Json} (h : ∀ x ∈ items, x.Public) :
    (items.getLastD .null).Public := by
  rw [List.getLastD_eq_getLast?]
  cases hlast : items.getLast? with
  | none => exact public_null
  | some x => exact h x (List.mem_of_getLast? hlast)

theorem stage_screened (v : Json) : Screened (fun _ => True) (stage R v) := by
  refine .bind (.lift _) fun _ _ => .bind (.failIf _ _) fun _ _ =>
    .bind (screened_check _) fun _ _ => .bind (.lift _) fun _ hobjects => ?_
  have hv := importObjects_public hobjects
  have hp := getLastD_public (hv (.parameters, "parameters_history") (by simp [importKinds]))
  have he := getLastD_public (hv (.epoch, "epoch_history") (by simp [importKinds]))
  refine .bind (stageObjects_screened _ _ hv) fun _ _ => .bind (screened_check _) fun _ _ =>
    .bind screened_newId fun _ _ => .bind (screened_look _) fun _ _ =>
    .bind (screened_setStore fun st h => { h with imports := fun i hi => ?_ }) fun _ _ =>
    .bind (screened_look _) fun current _ => ?_
  · cases hst : st.imports with
    | none =>
        rw [hst] at hi
        obtain rfl := Option.some.inj hi
        exact ⟨hp, he⟩
    | some i' =>
        rw [hst] at hi
        obtain rfl := Option.some.inj hi
        exact h.imports _ hst
  · cases current with
    | some c => exact .bind (screened_check _) fun _ _ => .pure trivial
    | none =>
        exact .bind (.bind screened_newId fun _ _ => .bind screened_newId fun _ _ =>
          .bind (screened_setChain fun _ _ => ⟨hp, he⟩) fun _ _ => save_screened R) fun _ _ =>
          .bind (screened_check _) fun _ _ => .pure trivial

theorem adoptStaged_screened (oldGeneration : Nat) (kind : Kind) (id : String) :
    Screened (fun _ => True) (adoptStaged X oldGeneration kind id) := by
  refine .bind (screened_look _) fun obj hobj => .bind (.require _ _) fun v hv => ?_
  obtain ⟨st, hst, rfl⟩ := hobj
  have hv := hst.object hv
  exact .ite (fun _ => .bind (screened_look _) fun _ _ => enlist_screened X _ hv)
    fun _ => .bind (append_screened X hv) fun _ _ => .pure trivial

theorem reseed_screened (auth : Auth) (v : Json) :
    Screened (fun _ => True) (reseed R auth v) := by
  refine .bind (.lift _) fun _ _ => .bind (.lift _) fun _ _ => .bind (.lift _) fun _ hp =>
    .bind (screened_check _) fun before _ => ?_
  cases before with
  | some response => exact .pure trivial
  | none =>
      refine .bind screened_chain fun old _ => .bind (screened_check _) fun imported hcheck =>
        .bind (.bind screened_newId fun _ _ => .bind screened_newId fun _ _ =>
          screened_setChain fun c hc => ⟨validate_public hp, hc.epoch⟩) fun _ _ =>
        .bind (screened_check _) fun _ hdevices => .bind (.collect fun _ _ =>
          .bind (screened_look _) fun _ _ => (Maintains.collect fun _ _ =>
            adoptStaged_screened _ _ _ _).weaken fun _ _ => trivial) fun _ _ =>
        .bind (screened_check _) fun _ hbundle =>
        .bind (append_screened _ (validate_public hp)) fun _ _ => ?_
      obtain ⟨_, _, -, -, hcheck⟩ := hcheck
      obtain ⟨_, _, -, -, hdevices⟩ := hdevices
      obtain ⟨_, _, -, -, hbundle⟩ := hbundle
      have hbundle := (reseedEpochCheck_ok hbundle).public
      refine .bind (commitEpoch_screened _ hbundle.1 hbundle.2 (fun d hd => validate_public
          (stagedDeviceCheck_ok (Check.each_ok.mp hdevices d hd)).valid)
          fun op hop => Option.some.inj hop ▸ reseedCheck_public hcheck) fun _ _ =>
        .bind (screened_check _) fun _ hcompaction => ?_
      obtain ⟨_, _, -, -, hcompaction⟩ := hcompaction
      exact .bind (append_screened _ (reseedCompactionCheck_public hcompaction)) fun _ _ =>
        .bind screened_chain fun c _ => .bind (outcome_screened _ _ _ _
          ((result_public _ c).set (receiptsJson_public _) (by decide))) fun _ _ =>
        .bind (screened_setStore fun _ h => { h with imports := fun _ hi => by cases hi })
          fun _ _ => .pure trivial

/-! ## Uploads -/

theorem uploadEnvelope_screened (call : Call) (r : Json) :
    Screened (fun _ => True) (uploadEnvelope X call r) := by
  refine .bind (screened_check _) fun _ hcheck => ?_
  obtain ⟨_, _, -, -, hcheck⟩ := hcheck
  exact .bind (append_screened X (uploadEnvelopeCheck_public hcheck)) fun _ _ => .pure trivial

theorem uploadRepair_screened (call : Call) (index : Nat) (r : Json) :
    Screened (fun _ => True) (uploadRepair X call index r) := by
  refine .bind (screened_check _) fun _ hcheck => .bind (screened_look _) fun _ _ => ?_
  obtain ⟨_, _, -, -, hcheck⟩ := hcheck
  exact .bind (append_screened X (repairCheck_public hcheck)) fun _ _ => .pure trivial

theorem uploadRecord_screened (call : Call) (r : Json) :
    Screened (fun _ => True) (uploadRecord X call r) := by
  refine .bind screened_chain fun _ _ => .bind (.failIf _ _) fun _ _ =>
    .bind (screened_look _) fun _ _ => .bind (screened_check _) fun _ hcheck => ?_
  obtain ⟨_, _, -, -, hcheck⟩ := hcheck
  have hr := record_public hcheck
  exact .bind (screened_setStore fun _ h => h.congr rfl) fun _ _ => .ite
    (fun _ => .bind (snapshotPart_screened X hr) fun _ _ => .pure trivial)
    fun _ => .bind (append_screened X hr) fun _ _ => .pure trivial

theorem uploadItem_screened (call : Call) (index : Nat) (r : Json) :
    Screened (fun _ => True) (uploadItem R call index r) := by
  refine .bind screened_now fun _ _ => .bind (.lift _) fun _ _ =>
    .bind (screened_check _) fun _ _ => .bind (screened_check _) fun _ _ => ?_
  split
  · exact .bind (uploadEnvelope_screened _ _ _) fun _ _ => .bind (save_screened R) fun _ _ =>
      .pure trivial
  · exact .bind (uploadRepair_screened _ _ _ _) fun _ _ => .bind (save_screened R) fun _ _ =>
      .pure trivial
  · exact .bind (uploadRecord_screened _ _ _) fun _ _ => .bind (save_screened R) fun _ _ =>
      .pure trivial

theorem auditReject_screened (objects : List Json) (code : Code) :
    Screened (fun _ => True) (auditReject R objects code) :=
  .bind (.each fun _ _ => .bind (transparency_screened _ _ _ _ _) fun _ _ => .pure trivial)
    fun _ _ => save_screened R

/-! ## Transactions -/

theorem writeRoute_screened (call : Call) (htoken : call.auth.token.Public) :
    Screened (fun _ => True) (writeRoute R call) := by
  unfold writeRoute
  split
  · exact (enroll_screened R _ _ _).weaken fun _ _ => trivial
  · exact epoch_screened R _ _ _
  · exact epoch_screened R _ _ _
  · exact offer_screened R _ _
  · exact approve_screened R _ _ _ _
  · exact approve_screened R _ _ _ _
  · exact .bind (ack_screened R _ _ _) fun _ _ => .pure trivial
  · exact snapshot_screened R _
  · exact .bind (prune_screened R _ _) fun _ _ => .pure trivial
  · exact .bind (reseed_screened R _ _) fun _ _ => .pure trivial
  · exact .bind (delete_screened R _ _ htoken) fun _ _ => .pure trivial
  · exact .throw _

theorem dispatch_screened (call : Call) (htoken : call.auth.token.Public) :
    Screened (fun _ => True) (dispatch R call) :=
  .bind (.lift _) fun _ _ => .ite
    (fun _ => .bind (screened_reads (exportChain_reads R _ _)) fun _ _ => .pure trivial)
    fun _ => .ite
      (fun _ => .bind (screened_reads (readRoute_reads R call)) fun _ _ => .bind (.lift _)
        fun _ _ => .pure trivial)
      fun _ => .bind (writeRoute_screened R call htoken) fun _ _ => .bind (.lift _) fun _ _ =>
        .bind (save_screened R) fun _ _ => .bind (screened_check _) fun _ _ => .pure trivial

theorem executeTx_screened (call : Call) (htoken : call.auth.token.Public) :
    Screened (fun _ => True) (executeTx R call) := by
  unfold executeTx
  split
  · exact .bind (.lift _) fun _ _ => .bind (genesis_screened R _) fun _ _ => .pure trivial
  · exact .bind (.lift _) fun _ _ => .bind (.lift _) fun _ _ =>
      .bind (stage_screened R _) fun _ _ => .pure trivial
  · exact .bind (screened_look _) fun _ _ => .bind (.require _ _) fun _ _ =>
      .bind (.failIf _ _) fun _ _ => .bind (screened_check _) fun _ _ =>
      dispatch_screened R call htoken

theorem enrollmentCandidate_screened (q : Query) (v : Json) :
    Screened (fun _ => True) (enrollmentCandidate R q v) :=
  .bind (.lift _) fun _ _ => .bind (screened_look _) fun _ _ => .bind (.failIf _ _) fun _ _ =>
    .bind (.require _ _) fun _ _ => .bind (.failIf _ _) fun _ _ =>
    .bind (enrollmentRequest_screened R _) fun _ _ => .bind (screened_check _) fun _ _ =>
    .pure trivial

end Programs

section Transactions

variable {R : Relay} {o : Oracle} {st : Store} {α : Type}

theorem Screened.run {P : α → Prop} {m : Tx α} (h : Screened P m) (hst : st.Public) {x : α}
    {b : Cell} (hrun : m.run o st = .ok (x, b)) : b.store.Public := by
  obtain ⟨w, w', hw, hm, rfl⟩ := run_ok hrun
  have hchain : (st.chain.getD .unset).Public := by
    cases hc : st.chain with
    | none => exact ⟨public_null, public_null⟩
    | some c => exact hst.chain c hc
  exact (h w x w' ⟨by rw [hw]; exact hst, by rw [hw]; exact hchain⟩ hm).1.store

theorem erase_public (h : st.Public) : st.erase.Public := by
  unfold Store.erase
  split
  · exact { Store.Public.blank with
      chain := h.chain
      deletion := h.deletion
      deleteVersions := h.deleteVersions }
  · exact h

theorem finish_public {X : Crypto} {t : Nat} {st' : Store} (h : st.Public)
    (hdone : st.finish X t = .ok st') : st'.Public := by
  unfold Store.finish at hdone
  split at hdone
  · exact Except.ok.inj hdone ▸ h
  · rename_i d hd
    obtain ⟨hproof, houtcome⟩ := h.deletion d hd
    obtain ⟨-, hdone⟩ | ⟨-, hdone⟩ := Check.ite_ok.mp hdone
    · obtain ⟨proof, hcompleted, hdone⟩ := Check.bind_ok.mp hdone
      obtain rfl := Check.pure_ok.mp hdone
      exact { h with
        deleteVersions := Table.forall_insertIgnore h.deleteVersions hproof
        deletion := fun d' hd' => Option.some.inj hd' ▸
          ⟨completedProof_public hproof hcompleted, houtcome⟩ }
    · exact Except.ok.inj hdone ▸ h

theorem noticeStore_public {st' : Store} (h : st.Public)
    (hn : World.noticeStore R o st = .ok st') : st'.Public := by
  unfold World.noticeStore at hn
  split at hn
  · obtain ⟨⟨u, b⟩, hrun, hn⟩ := Check.bind_ok.mp hn
    obtain rfl := Check.pure_ok.mp hn
    have hm : Screened (fun _ => True) (do publishNotice R; save R : Tx Unit) :=
      .bind (publishNotice_screened R) fun _ _ => save_screened R
    exact hm.run h hrun
  · exact Except.ok.inj hn ▸ h

theorem expireStore_public {t : Nat} {st' : Store} (h : st.Public)
    (he : World.expireStore R o t st = .ok st') : st'.Public := by
  unfold World.expireStore at he
  split at he
  · exact Except.ok.inj he ▸ h
  · split at he
    · exact Except.ok.inj he ▸ h
    · obtain ⟨⟨u, b⟩, hrun, he⟩ := Check.bind_ok.mp he
      obtain rfl := Check.pure_ok.mp he
      have hm : Screened (fun _ => True) (do expire; check fun st _ => st.quota R : Tx Unit) :=
        .bind expire_screened fun _ _ => screened_silent (check_silent _)
      exact hm.run h hrun

theorem stepItemAudit_public {faults : Faults} {call : Call} {p : Progress} {r : Json}
    {e : ApiError} (h : st.Public) : (stepItemAudit R o faults call p r e st).1.Public := by
  unfold stepItemAudit
  split
  · exact h
  · split
    · exact h
    · split
      · exact h
      · rename_i u b hrun
        exact (auditReject_screened R _ _).run h hrun

theorem stepAudit_public {call : Call} {e : ApiError} (h : st.Public) :
    (stepAudit R o call e st).1.Public := by
  unfold stepAudit
  split
  · exact h
  · split
    · exact h
    · rename_i u b hrun
      exact (auditReject_screened R _ _).run h hrun

end Transactions

/-! ## Runs -/

/-- The token of a request to be executed was scanned. -/
def Task.Vetted : Task → Prop
  | .start call _ => call.auth.token.Public
  | _ => True

section Runs

variable {X : Crypto} {w : World}

theorem tokenCheck_public {R : Relay} {st : Store} {barrier : Option Nat} {q : Request}
    {id : String} {proposed : Option String} {t : Nat} {token : Json}
    (h : tokenCheck R st barrier q id proposed t = .ok token) : token.Public := by
  simp only [tokenCheck, Check.bind_ok] at h
  obtain ⟨token', -, _, hshape, _, -, _, -, _, -, key, -, _, -, h⟩ := h
  have htoken := tokenShape_public hshape
  obtain ⟨-, h⟩ | ⟨-, h⟩ := Check.ite_ok.mp h
  · obtain ⟨_, -, h⟩ := Check.bind_ok.mp h
    obtain ⟨_, -, h⟩ := Check.bind_ok.mp h
    exact Check.pure_ok.mp h ▸ htoken
  · exact Check.pure_ok.mp h ▸ htoken

theorem stepTask_vetted (h : ∀ t ∈ w.tasks, t.Vetted) (i : Nat) (o : Oracle) (faults : Faults) :
    ∀ t ∈ (w.stepTask X i o faults).tasks, t.Vetted := by
  have hset : ∀ {w' : World} {task : Task}, w'.tasks = w.tasks → task.Vetted →
      ∀ t ∈ (w'.setTask i task).tasks, t.Vetted := fun {w' task} hw htask t ht => by
    obtain ht | rfl := List.mem_or_eq_of_mem_set ht
    · exact h t (hw ▸ ht)
    · exact htask
  have hturn : ∀ (call : Call) (turn : Turn), (turn.task call).Vetted := fun call turn => by
    cases turn <;> exact trivial
  unfold World.stepTask
  dsimp only
  split
  · unfold World.stepStart
    dsimp only
    split
    · exact hset rfl trivial
    · split
      · split
        · exact hset rfl trivial
        · exact hset rfl trivial
      · split
        · exact hset rfl trivial
        · refine hset rfl ?_
          unfold stepExecute
          split
          · exact trivial
          · split
            · split <;> exact trivial
            · split <;> exact trivial
  · refine hset rfl ?_
    unfold stepShape
    dsimp only
    split <;> exact trivial
  · split
    · exact hset rfl trivial
    · exact hset rfl (hturn _ _)
  · exact hset rfl (hturn _ _)
  · refine hset rfl ?_
    unfold stepAudit
    split
    · exact trivial
    · split <;> exact trivial
  · unfold World.stepErase
    dsimp only
    split
    · exact hset rfl (by split <;> exact trivial)
    · exact hset rfl trivial
  · unfold World.stepFinish
    dsimp only
    split
    · rename_i w' hw'
      exact hset (World.mapStores_ok hw' "").2.2 (by split <;> exact trivial)
    · exact hset rfl (by split <;> exact trivial)
  · unfold World.stepNotices
    split
    · rename_i w' hw'
      exact hset (World.mapStores_ok hw' "").2.2 trivial
    · exact hset rfl trivial
  · exact h
  · exact h

theorem stepRequest_vetted (h : ∀ t ∈ w.tasks, t.Vetted) (q : Request) (o : Oracle) :
    ∀ t ∈ (w.stepRequest X q o).tasks, t.Vetted := by
  have hspawn : ∀ {w' : World} {task : Task}, w'.tasks = w.tasks → task.Vetted →
      ∀ t ∈ (w'.spawn task).tasks, t.Vetted := fun {w' task} hw htask t ht => by
    obtain ht | ht := List.mem_append.mp ht
    · exact h t (hw ▸ ht)
    · exact List.mem_singleton.mp ht ▸ htask
  unfold World.stepRequest World.stepEnrollment
  dsimp only
  split
  · split
    · exact hspawn rfl trivial
    · split
      · exact hspawn rfl trivial
      · split
        · exact hspawn rfl trivial
        · split
          · exact hspawn rfl trivial
          · exact hspawn rfl trivial
  · split
    · exact hspawn rfl trivial
    · split
      · exact hspawn rfl trivial
      · rename_i hauth
        exact hspawn rfl (tokenCheck_public (authenticate_ok (congrArg Prod.fst hauth)).1)

/-- No transaction stores a recovery artifact. -/
theorem Txn.public {id : String} {ev : Event} {st' : Store} (h : Txn X w id ev st')
    (htasks : ∀ t ∈ w.tasks, t.Vetted) (hst : (w.store id).Public) : st'.Public := by
  cases h with
  | kept => exact hst
  | @executed i o o' faults call v ht _ =>
      obtain he | ⟨reply, b, -, hrun, he⟩ :=
        stepExecute_run (w.relay X) o' { call with value := v } (w.store id)
      · rw [he]
        exact hst
      · rw [he]
        have htoken : call.auth.token.Public := htasks _ (List.mem_of_getElem? ht)
        exact (executeTx_screened _ { call with value := v } htoken).run hst hrun
  | @item i o faults call p x rest _ _ _ =>
      obtain he | ⟨y, b, -, hrun, he⟩ :=
        stepItem_run (w.relay X) o faults call p x rest (w.store id)
      · rw [he]
        exact hst
      · rw [he]
        exact (uploadItem_screened _ _ _ _).run hst hrun
  | itemAudit _ _ => exact stepItemAudit_public hst
  | audit _ _ => exact stepAudit_public hst
  | erased _ => exact erase_public hst
  | finished _ h => exact finish_public hst h
  | notice _ h => exact noticeStore_public hst h
  | enrollment _ h => exact (enrollmentCandidate_screened _ _ _).run hst h
  | expired h => exact expireStore_public hst h

/-- The tasks of a world were vetted and its stores are public. -/
structure World.Public (w : World) : Prop where
  tasks : ∀ t ∈ w.tasks, t.Vetted
  stores : ∀ id, (w.store id).Public

theorem step_public (h : w.Public) (ev : Event) : (w.step X ev).Public := by
  refine ⟨?_, fun id => (step_txn X w ev id).public h.tasks (h.stores id)⟩
  cases ev with
  | request q o => exact stepRequest_vetted h.tasks q o
  | resume i o faults => exact stepTask_vetted h.tasks i o faults
  | complete =>
      exact List.forall_mem_append.mpr ⟨h.tasks, List.forall_mem_singleton.mpr trivial⟩
  | retention o =>
      show ∀ t ∈ (w.stepRetention X o).tasks, t.Vetted
      unfold World.stepRetention
      split
      · rename_i w' hw'
        rw [(World.mapStores_ok hw' "").2.2]
        exact h.tasks
      · exact h.tasks
  | restart settings t => exact List.forall_mem_singleton.mpr trivial

end Runs

theorem after_public (X : Crypto) (cfg : RelayConfig) (es : List Event) :
    (World.after X cfg es).Public := by
  have hinit : (World.initial cfg).Public :=
    ⟨fun _ ht => absurd ht List.not_mem_nil, fun _ => .blank⟩
  exact run_invariant hinit (fun _ ev h => step_public h ev) es

/-- The JSON of clients that a store holds, and what the relay builds around it. -/
inductive Store.Held (st : Store) : Json → Prop where
  | object {r v} : r ∈ st.objects → r.body = some v → st.Held v
  | entry {r e} : r ∈ st.log → r.entry = some e → st.Held e.toJson
  | offer {r} : r ∈ st.offers → st.Held r.offer
  | request {r v} : r ∈ st.offers → r.request = some v → st.Held v
  | pastOffer {r} : r ∈ st.offerHistory → st.Held r.offer
  | pastRequest {r v} : r ∈ st.offerHistory → r.request = some v → st.Held v
  | importedParameters {i} : st.imports = some i → st.Held i.parameters
  | importedEpoch {i} : st.imports = some i → st.Held i.epoch
  | proof {d} : st.deletion = some d → st.Held d.proof
  | deletionOutcome {d} : st.deletion = some d → st.Held d.outcome
  | pastProof {r} : r ∈ st.deleteVersions → st.Held r.proof
  | outcome {r} : r ∈ st.outcomes → st.Held r.response
  | parameters {c} : st.chain = some c → st.Held c.parameters
  | epoch {c} : st.chain = some c → st.Held c.epoch

theorem Store.Public.held {st : Store} (h : st.Public) {v : Json} (hv : st.Held v) : v.Public := by
  cases hv with
  | object hr hv => exact h.objects _ hr _ hv
  | entry hr he => exact h.log _ hr _ he
  | offer hr => exact (h.offers _ hr).1
  | request hr hv => exact (h.offers _ hr).2 _ hv
  | pastOffer hr => exact (h.offerHistory _ hr).1
  | pastRequest hr hv => exact (h.offerHistory _ hr).2 _ hv
  | importedParameters hi => exact (h.imports _ hi).1
  | importedEpoch hi => exact (h.imports _ hi).2
  | proof hd => exact (h.deletion _ hd).1
  | deletionOutcome hd => exact (h.deletion _ hd).2
  | pastProof hr => exact h.deleteVersions _ hr
  | outcome hr => exact h.outcomes _ hr
  | parameters hc => exact (h.chain _ hc).parameters
  | epoch hc => exact (h.chain _ hc).epoch

/-- The scan lets only public values through, and after any run no object
inside anything a chain's tables hold of its clients has a reserved type, and
none has both a mnemonic and a passphrase. -/
theorem no_artifact_stored (X : Crypto) (cfg : RelayConfig) (es : List Event) (id : String) :
    (∀ v, rejectPending [v] = .ok () → v.Public) ∧
    ∀ v, (storeAfter X cfg es id).Held v → ∀ members, Json.Within (.obj members) v →
      (∀ kind ∈ reservedTypes, members.lookup "type" ≠ some (.str kind)) ∧
        ¬((members.lookup "mnemonic").isSome ∧ (members.lookup "passphrase").isSome) := by
  refine ⟨fun v hscan => ?_, fun v hv members hin => ?_⟩
  · rw [← rejectLocalArtifacts_pending] at hscan
    exact public_of_scan (Check.failIf_ok.mp hscan)
  · have hself := ((after_public X cfg es).stores id).held hv members hin
    obtain ⟨htype, hboth⟩ := Bool.or_eq_false_iff.mp hself
    refine ⟨fun kind hkind he => ?_, fun ⟨hm, hp⟩ => ?_⟩
    · rw [he] at htype
      have hnot : reservedTypes.contains kind = false := htype
      rw [List.contains_iff_mem.mpr hkind] at hnot
      cases hnot
    · rw [hm, hp] at hboth
      cases hboth

/-- The policy inside the stored parameters of a chain. -/
theorem no_artifact_stored_genesis : ∃ members,
    Sample.policy "windowed" true = .obj members ∧
    (storeAfter Sample.crypto Sample.cfg Sample.genesisRun Sample.chainId).Held
      (Sample.parameters 0 .null) ∧
    (∀ kind ∈ reservedTypes, members.lookup "type" ≠ some (.str kind)) ∧
    ¬((members.lookup "mnemonic").isSome ∧ (members.lookup "passphrase").isSome) := by
  have hrun : (storeAfter Sample.crypto Sample.cfg Sample.genesisRun Sample.chainId).chain.map
      (·.parameters) = some (Sample.parameters 0 .null) := by decide +kernel
  obtain ⟨c, hc, hp⟩ := Option.map_eq_some_iff.mp hrun
  have hheld := hp ▸ Store.Held.parameters hc
  exact ⟨_, rfl, hheld,
    (no_artifact_stored Sample.crypto Sample.cfg Sample.genesisRun Sample.chainId).2 _ hheld _
      (.member (k := "policy") rfl .self)⟩

end PallaSync
