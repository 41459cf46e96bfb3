import PallaSync.Aside

/-!
# Beside the ledger

The staged import is written by `stage` and `reseed` only, the reserved payload
nonces by `uploadRecord`; to the outcomes and the published heads rows are only
added, and the rows of the offers stand once they are made. `Beside` says that
a transaction kept to that, and that a chain row is not stored without its
head.
-/

namespace PallaSync

open Atomic

/-- The offer stands, and so does a request it was given. -/
structure OfferRow.Stands (row row' : OfferRow) : Prop where
  offer : row'.offer = row.offer
  request : ∀ r, row.request = some r → row'.request = some r

/-- The head of the stored chain row is published. -/
def Store.Published (st : Store) : Prop :=
  ∀ c, st.chain = some c → (st.heads.find? (c.transparencyId, c.transparencyIndex)).isSome

/-- The staged import and the reserved nonces are untouched, no outcome, offer
or head is lost, and a chain row that was stored is published. -/
structure Beside (st st' : Store) : Prop where
  imports : st'.imports = st.imports
  payloadNonces : st'.payloadNonces = st.payloadNonces
  outcomes : ∀ q o, st.outcomes.find? q = some o → st'.outcomes.find? q = some o
  offers : ∀ q row, st.offers.find? q = some row →
    ∃ row', st'.offers.find? q = some row' ∧ row.Stands row'
  heads : ∀ q h, st.heads.find? q = some h → st'.heads.find? q = some h
  published : st'.chain = st.chain ∨ st'.Published

namespace Beside

variable {st st' st'' : Store}

theorem of_eq (hi : st'.imports = st.imports) (hn : st'.payloadNonces = st.payloadNonces)
    (ho : st'.outcomes = st.outcomes) (hf : st'.offers = st.offers)
    (hh : st'.heads = st.heads) (hc : st'.chain = st.chain) : Beside st st' :=
  ⟨hi, hn, fun _ _ h => ho ▸ h, fun _ row h => ⟨row, hf ▸ h, rfl, fun _ hr => hr⟩,
    fun _ _ h => hh ▸ h, .inl hc⟩

theorem refl (st : Store) : Beside st st := .of_eq rfl rfl rfl rfl rfl rfl

theorem trans (h : Beside st st') (h' : Beside st' st'') : Beside st st'' where
  imports := h'.imports.trans h.imports
  payloadNonces := h'.payloadNonces.trans h.payloadNonces
  outcomes q o ho := h'.outcomes q o (h.outcomes q o ho)
  offers q row hrow := by
    obtain ⟨row', hrow', hs⟩ := h.offers q row hrow
    obtain ⟨row'', hrow'', hs'⟩ := h'.offers q row' hrow'
    exact ⟨row'', hrow'', hs'.offer.trans hs.offer,
      fun r hr => hs'.request r (hs.request r hr)⟩
  heads q x hx := h'.heads q x (h.heads q x hx)
  published := by
    rcases h'.published with hc' | hp'
    · rcases h.published with hc | hp
      · exact .inl (hc'.trans hc)
      · refine .inr fun c hc => ?_
        obtain ⟨x, hx⟩ := Option.isSome_iff_exists.mp (hp c (hc' ▸ hc))
        exact Option.isSome_iff_exists.mpr ⟨x, h'.heads _ _ hx⟩
    · exact .inr hp'

/-- A law of the stored row and its head. -/
theorem keeps_published (h : Beside st st') (hp : st.Published) : st'.Published := by
  rcases h.published with hc | hp'
  · intro c hc'
    obtain ⟨x, hx⟩ := Option.isSome_iff_exists.mp (hp c (hc ▸ hc'))
    exact Option.isSome_iff_exists.mpr ⟨x, h.heads _ _ hx⟩
  · exact hp'

end Beside

/-- The store with another staged import. -/
def Store.staging (st : Store) (i : Option Import) : Store := { st with imports := i }

theorem Beside.staging {st st' : Store} (h : Beside st st') (i : Option Import) :
    Beside (st.staging i) (st'.staging i) :=
  ⟨rfl, h.payloadNonces, h.outcomes, h.offers, h.heads, h.published⟩

/-- `Beside`, for the stores of a transaction. -/
def besideFrame : Frame Work where
  rel w w' := Beside w.cell.store w'.cell.store
  refl w := .refl w.cell.store
  trans := .trans

/-- A program that keeps beside the ledger. -/
abbrev StaysBeside {α : Type} (m : Tx α) : Prop := Keeps besideFrame m

section Programs

variable (X : Crypto) (R : Relay)

/-- The row is stored, and its head published unless one was. -/
theorem save_published {w w' : Work} {u : Unit} (h : save R w = .ok (u, w')) :
    ∃ cut : HeadRow, cut.key = (w.cell.chain.transparencyId, w.cell.chain.transparencyIndex) ∧
      w'.cell.store = { w.cell.store with
        chain := some w.cell.chain
        heads := w.cell.store.heads.insertIgnore cut } ∧
      w'.cell.store.quota R = .ok () := by
  simp only [save, bind_ok, chain_ok, setStore_ok, now_ok, require_ok, check_ok] at h
  obtain ⟨_, _, ⟨rfl, rfl⟩, _, _, rfl, _, _, ⟨-, rfl⟩, _, _, ⟨-, rfl⟩, _, _, rfl, hq, rfl⟩ := h
  exact ⟨_, rfl, rfl, hq⟩

theorem save_beside : StaysBeside (save R) := by
  intro w u w' h
  show Beside w.cell.store w'.cell.store
  obtain ⟨cut, hcut, hw, -⟩ := save_published R h
  rw [hw]
  refine ⟨rfl, rfl, fun _ _ h => h, fun _ row h => ⟨row, h, rfl, fun _ hr => hr⟩,
    fun q x hx => ?_, .inr fun c hc => ?_⟩
  · rw [Table.find?_insertIgnore, hx, Option.getD_some, ite_self]
  · obtain rfl := Option.some.inj hc
    rw [Table.find?_insertIgnore, if_pos hcut.symm]
    rfl

theorem besideFrame_aside : SavedAside besideFrame where
  still w w' h _ := by
    simp only [Store.aside, Store.mk.injEq] at h
    exact .of_eq (by simp only [h]) (by simp only [h]) (by simp only [h]) (by simp only [h])
      (by simp only [h]) (by simp only [h])
  save := save_beside

theorem outcome_beside (scope : OutcomeScope) (id : String) (payload response : Json) :
    StaysBeside (outcome X scope id payload response) := by
  intro w u w' h
  obtain ⟨st, hst, rfl⟩ := attempt_ok.mp h
  obtain ⟨tab, htab, rfl⟩ := Option.map_eq_some_iff.mp hst
  refine ⟨rfl, rfl, fun q o ho => ?_, fun _ row h => ⟨row, h, rfl, fun _ hr => hr⟩,
    fun _ _ h => h, .inl rfl⟩
  rw [Table.find?_insert? htab, if_neg, ho]
  rintro rfl
  exact absurd (ho.symm.trans (Table.find?_insert?_free htab)) (by simp)

theorem insertOffer_beside (row : OfferRow) : StaysBeside (attempt (·.insertOffer row)) := by
  intro w u w' h
  obtain ⟨st, hst, rfl⟩ := attempt_ok.mp h
  obtain ⟨tab, htab, rfl⟩ := Option.map_eq_some_iff.mp hst
  refine ⟨rfl, rfl, fun _ _ h => h, fun q x hx => ⟨x, ?_, rfl, fun _ hr => hr⟩,
    fun _ _ h => h, .inl rfl⟩
  rw [Table.find?_insert? htab, if_neg, hx]
  rintro rfl
  exact absurd (hx.symm.trans (Table.find?_insert?_free htab)) (by simp)

/-- A rewriting that keeps what an offer says, and the request it has. -/
theorem updateOffer_beside (id : String) {f : OfferRow → OfferRow}
    {hf : ∀ r, (f r).requestId = r.requestId} {st : Store}
    (h : ∀ row, st.offers.find? id = some row → row.Stands (f row)) :
    Beside st (st.updateOffer id f hf) := by
  refine ⟨rfl, rfl, fun _ _ h => h,
    fun q row hrow => ⟨if row.requestId == id then f row else row, ?_, ?_⟩,
    fun _ _ h => h, .inl rfl⟩
  · show (st.offers.update _ f hf).find? q = _
    rw [Table.find?_update, hrow, Option.map_some]
  · split
    · rename_i hid
      have hkey : row.requestId = q := (Table.find?_eq_some.mp hrow).2
      rw [beq_iff_eq, hkey] at hid
      exact h row (hid ▸ hrow)
    · exact ⟨rfl, fun _ hr => hr⟩

/-- An answer to an offer is recorded where there is none. -/
theorem enrollmentRequest_ok {v : Json} {w w' : Work} {x : Nat × Json}
    (h : enrollmentRequest R v w = .ok (x, w')) :
    ∃ row, w.cell.store.offers.find? (s v "request_id") = some row ∧
      (w'.cell = w.cell ∨ row.request = none ∧ row.status = .awaitingApproval ∧
        w'.cell = { w.cell with
          store := w.cell.store.updateOffer (s v "request_id")
            (fun r => { r with request := some v }) fun _ => rfl }) := by
  simp only [enrollmentRequest, bind_ok, lift_ok, chain_ok, look_ok, require_ok, failIf_ok, now_ok,
    check_ok] at h
  obtain ⟨_, _, ⟨-, rfl⟩, c, _, ⟨rfl, rfl⟩, _, _, ⟨rfl, rfl⟩, row, _, ⟨hrow, rfl⟩, _, _,
    ⟨hopen, rfl⟩, _, _, ⟨-, rfl⟩, _, _, ⟨-, rfl⟩, _, _, ⟨-, rfl⟩, _, _, ⟨-, rfl⟩, _, _,
    ⟨-, rfl⟩, _, _, ⟨-, rfl⟩, _, _, ⟨-, rfl⟩, _, _, ⟨-, rfl⟩, _, _, ⟨-, rfl⟩, h⟩ := h
  refine ⟨row, hrow, ?_⟩
  cases hrequest : row.request with
  | some old =>
      simp only [hrequest, bind_ok, failIf_ok, pure_ok] at h
      obtain ⟨_, _, ⟨-, rfl⟩, -, rfl⟩ := h
      exact .inl rfl
  | none =>
      simp only [hrequest, bind_ok, setStore_ok, pure_ok] at h
      obtain ⟨_, _, rfl, -, rfl⟩ := h
      simp only [Bool.or_eq_false_iff, bne_eq_false_iff_eq] at hopen
      exact .inr ⟨rfl, hopen.1, rfl⟩

theorem enrollmentRequest_beside (v : Json) : StaysBeside (enrollmentRequest R v) := by
  intro w x w' h
  show Beside w.cell.store w'.cell.store
  obtain ⟨row, hrow, hcell | ⟨hnone, -, hcell⟩⟩ := enrollmentRequest_ok R h
  · rw [hcell]
    exact .refl _
  · rw [hcell]
    refine updateOffer_beside _ fun row' hrow' => ⟨rfl, fun r hr => ?_⟩
    obtain rfl := Option.some.inj (hrow'.symm.trans hrow)
    rw [hnone] at hr
    cases hr

/-! ## The three exceptions -/

/-- An import stages its terminal head, unless one is staged already. -/
theorem stage_beside {v : Json} {w w' : Work} {r : Json} (h : stage R v w = .ok (r, w')) :
    ∃ logId, Beside (w.cell.store.staging (w.cell.store.imports.or
      (some ⟨logId, terminalParameters v, terminalEpoch v⟩))) w'.cell.store := by
  simp only [stage, bind_ok, lift_ok, failIf_ok, check_ok, newId_ok, look_ok, setStore_ok] at h
  obtain ⟨_, _, ⟨-, rfl⟩, _, _, ⟨-, rfl⟩, _, _, ⟨-, rfl⟩, _, _, ⟨-, rfl⟩, _, w₁, hstage,
    _, _, ⟨-, rfl⟩, _, _, ⟨-, rfl⟩, _, _, ⟨rfl, rfl⟩, _, _, rfl, _, _, ⟨rfl, rfl⟩, h⟩ := h
  have hb : Beside w.cell.store w₁.cell.store :=
    besideFrame_aside.stageObjects R.crypto _ v _ _ _ hstage
  have hrow : ∃ logId, Beside (w₁.cell.store.staging (w₁.cell.store.imports.or
      (some ⟨logId, terminalParameters v, terminalEpoch v⟩))) w'.cell.store := by
    cases hc : w₁.cell.store.chain with
    | some c =>
        simp only [hc, bind_ok, pure_ok, check_ok] at h
        obtain ⟨_, _, ⟨-, rfl⟩, _, _, ⟨-, rfl⟩, -, rfl⟩ := h
        exact ⟨_, .of_eq rfl rfl rfl rfl rfl hc.symm⟩
    | none =>
        simp only [hc, bind_ok, check_ok, pure_ok] at h
        obtain ⟨_, w₂, hchain, _, _, ⟨-, rfl⟩, -, rfl⟩ := h
        have hs : Beside _ w₂.cell.store :=
          (besideFrame_aside.stageChain R _ _ _).keeps (save_beside R) _ _ _ hchain
        exact ⟨_, hs.imports, hs.payloadNonces, hs.outcomes, hs.offers, hs.heads,
          hs.published.imp_left fun he => he.trans hc.symm⟩
  obtain ⟨logId, hrow⟩ := hrow
  rw [← hb.imports]
  exact ⟨logId, (hb.staging _).trans hrow⟩

/-- A re-seed consumes the staged import. -/
theorem reseed_beside {auth : Auth} {v : Json} {w w' : Work} {r : Json}
    (h : reseed R auth v w = .ok (r, w')) :
    w'.cell = w.cell ∨ Beside (w.cell.store.staging none) w'.cell.store := by
  simp only [reseed, bind_ok, lift_ok, check_ok] at h
  obtain ⟨_, _, ⟨-, rfl⟩, _, _, ⟨-, rfl⟩, _, _, ⟨-, rfl⟩, before, _, ⟨-, rfl⟩, h⟩ := h
  cases before with
  | some response =>
      obtain ⟨-, rfl⟩ := pure_ok.mp h
      exact .inl rfl
  | none =>
      simp only [bind_ok, chain_ok, check_ok, setStore_ok, pure_ok] at h
      obtain ⟨_, _, ⟨rfl, rfl⟩, _, _, ⟨-, rfl⟩, _, w₁, hre, _, _, ⟨-, rfl⟩, _, w₂, hadopt, _, _,
        ⟨-, rfl⟩, _, w₃, happ, _, w₄, hcommit, _, _, ⟨-, rfl⟩, _, w₅, hcomp, _, _, ⟨rfl, rfl⟩,
        _, w₆, hout, _, _, rfl, -, rfl⟩ := h
      have hF := besideFrame_aside
      have h₁ : Beside w.cell.store w₁.cell.store :=
        Keeps.bind hF.newId (fun _ => .bind hF.newId fun _ => hF.setChain _) _ _ _ hre
      have h₂ : Beside w₁.cell.store w₂.cell.store :=
        Keeps.collect (fun _ => .bind (hF.look _) fun _ =>
          .collect (hF.adoptStaged R.crypto _ _) _) _ _ _ _ hadopt
      have h₃ : Beside w₂.cell.store w₃.cell.store := hF.append R.crypto _ _ _ _ _ happ
      have h₄ : Beside w₃.cell.store w₄.cell.store := hF.commitEpoch R.crypto _ _ _ _ hcommit
      have h₅ : Beside w₄.cell.store w₅.cell.store := hF.append R.crypto _ _ _ _ _ hcomp
      have h₆ : Beside w₅.cell.store w₆.cell.store :=
        outcome_beside R.crypto _ _ _ _ _ _ _ hout
      exact .inr ((h₁.trans (h₂.trans (h₃.trans (h₄.trans (h₅.trans h₆))))).staging none)

/-- The nonce an uploaded record reserves. -/
def reservation (r : Json) : PayloadNonceRow :=
  ⟨n r "epoch", s r "payload_nonce", s r "record_id"⟩

/-- The store with one more nonce reserved, unless it was. -/
def Store.reserve (st : Store) (r : Json) : Store :=
  { st with payloadNonces := st.payloadNonces.insertIgnore (reservation r) }

/-- An uploaded record or part reserves its nonce, any other item nothing. -/
theorem uploadItem_beside {call : Call} {index : Nat} {r : Json} {w w' : Work}
    {x : Json × Option Receipt} (h : uploadItem R call index r w = .ok (x, w')) :
    Beside (if call.route = .envelopesPost ∨ call.route = .repair then w.cell.store
      else w.cell.store.reserve r) w'.cell.store := by
  simp only [uploadItem, bind_ok, now_ok, lift_ok, check_ok] at h
  obtain ⟨t, _, ⟨-, rfl⟩, _, _, ⟨-, rfl⟩, _, _, ⟨-, rfl⟩, _, _, ⟨-, rfl⟩, h⟩ := h
  generalize hroute : call.route = route at h ⊢
  split at h
  · obtain ⟨_, w₁, hup, h⟩ := bind_ok.mp h
    obtain ⟨_, w₂, hsave, h⟩ := bind_ok.mp h
    obtain ⟨-, rfl⟩ := pure_ok.mp h
    rw [if_pos (.inl rfl)]
    have hb : Beside w.cell.store w₁.cell.store := 
      besideFrame_aside.uploadEnvelope R.crypto call r { w with tick := w.tick + 1 } _ _ hup
    exact hb.trans (save_beside R _ _ _ hsave)
  · obtain ⟨_, w₁, hup, h⟩ := bind_ok.mp h
    obtain ⟨_, w₂, hsave, h⟩ := bind_ok.mp h
    obtain ⟨-, rfl⟩ := pure_ok.mp h
    rw [if_pos (.inr rfl)]
    have hb : Beside w.cell.store w₁.cell.store := 
      besideFrame_aside.uploadRepair R.crypto call _ r { w with tick := w.tick + 1 } _ _ hup
    exact hb.trans (save_beside R _ _ _ hsave)
  · rename_i he hr
    obtain ⟨_, w₁, hup, h⟩ := bind_ok.mp h
    obtain ⟨_, w₂, hsave, h⟩ := bind_ok.mp h
    obtain ⟨-, rfl⟩ := pure_ok.mp h
    rw [if_neg (not_or.mpr ⟨he, hr⟩)]
    simp only [uploadRecord, bind_ok, chain_ok, failIf_ok, look_ok, check_ok, reservePayloadNonce,
      setStore_ok] at hup
    obtain ⟨_, _, ⟨rfl, rfl⟩, _, _, ⟨-, rfl⟩, _, _, ⟨rfl, rfl⟩, duplicate, _, ⟨-, rfl⟩, _, _,
      rfl, hup⟩ := hup
    have hput : Beside (w.cell.store.reserve r) w₁.cell.store := by
      rcases ite_ok.mp hup with ⟨-, hup⟩ | ⟨-, hup⟩
      · exact Keeps.bind (besideFrame_aside.snapshotPart _ _) (fun _ => .pure _) _ _ _ hup
      · exact Keeps.bind (besideFrame_aside.append _ _ _) (fun _ => .pure _) _ _ _ hup
    exact hput.trans (save_beside R _ _ _ hsave)

theorem besideFrame_serves {call : Call} (himport : call.route ≠ .importChain)
    (hreseed : call.route ≠ .reseed) : Serves besideFrame R call where
  toAside := besideFrame_aside.toAside
  outcome _ _ := outcome_beside _ _ _ _ _
  insertOffer _ _ := insertOffer_beside _
  updateOffer _ _ _ w u w' h := by
    obtain rfl := setStore_ok.mp h
    exact updateOffer_beside _ fun _ _ => ⟨rfl, fun _ hr => hr⟩
  imports hroute := (not_or.mpr ⟨himport, hreseed⟩ hroute).elim

/-- Every other executing transaction keeps beside the ledger. -/
theorem executeTx_beside {call : Call} (himport : call.route ≠ .importChain)
    (hreseed : call.route ≠ .reseed) : StaysBeside (executeTx R call) :=
  (besideFrame_serves R himport hreseed).executeTx.keeps (save_beside R)

end Programs

/-! ## Steps -/

/-- The event runs the transaction of an uploaded record or part `r`, which
commits. -/
structure Uploading (X : Crypto) (w : World) (id : String) (ev : Event) (call : Call) (index : Nat)
    (r : Json) (mid b : Cell) : Prop where
  event : w.uploading ev = some (call, index, r)
  chain : call.chain = id
  noEnvelope : call.route ≠ .envelopesPost
  noRepair : call.route ≠ .repair
  live : (w.store id).deletion = none
  stored : (w.store id).chain.isSome
  moved : ItemMoved (w.relay X) call index r (w.store id).cell mid
  saved : Saved mid b
  beside : Beside ((w.store id).reserve r) b.store

/-- What a step does beside the ledger of chain `id`. -/
inductive AsideStep (X : Crypto) (w : World) (id : String) (ev : Event) (st' : Store) : Prop where
  | kept : Beside (w.store id) st' →
      (∀ call, w.acting ev = some call → call.route = .reseed →
        st'.chain = (w.store id).chain) →
      (∀ call x, w.uploading ev = some (call, x) →
        call.route = .envelopesPost ∨ call.route = .repair ∨ st' = w.store id) →
      AsideStep X w id ev st'
  | imported {call logId mid b} : w.acting ev = some call → w.uploading ev = none →
      call.route = .importChain →
      Imported (w.relay X) call.value (w.store id).cell mid b → st' = b.store →
      Beside ((w.store id).staging ((w.store id).imports.or
        (some ⟨logId, terminalParameters call.value, terminalEpoch call.value⟩))) st' →
      AsideStep X w id ev st'
  | reseeded {call} : w.acting ev = some call → w.uploading ev = none → call.route = .reseed →
      Beside ((w.store id).staging none) st' → AsideStep X w id ev st'
  | uploaded {call index r mid b} : Uploading X w id ev call index r mid b → st' = b.store →
      AsideStep X w id ev st'

section Steps

variable {X : Crypto} {w : World} {id : String} {ev : Event} {st st' : Store}

theorem run_keeps_beside {α : Type} {m : Tx α} (hm : StaysBeside m) {o : Oracle} {x : α}
    {b : Cell} (h : m.run o st = .ok (x, b)) : Beside st b.store := by
  obtain ⟨w, w', hw, hrun, rfl⟩ := run_ok h
  have hb : Beside w.cell.store w'.cell.store := hm _ _ _ hrun
  rwa [hw] at hb

theorem stepAudit_beside (R : Relay) (o : Oracle) (call : Call) (e : ApiError) (st : Store) :
    Beside st (stepAudit R o call e st).1 := by
  unfold stepAudit
  split
  · exact .refl _
  · split
    · exact .refl _
    · rename_i hrun
      exact run_keeps_beside ((besideFrame_aside.auditReject R _ _).keeps (save_beside R)) hrun

theorem stepItemAudit_beside (R : Relay) (o : Oracle) (faults : Faults) (call : Call)
    (p : Progress) (r : Json) (e : ApiError) (st : Store) :
    Beside st (stepItemAudit R o faults call p r e st).1 := by
  unfold stepItemAudit
  split
  · exact .refl _
  · split
    · exact .refl _
    · split
      · exact .refl _
      · rename_i hrun
        exact run_keeps_beside ((besideFrame_aside.auditReject R _ _).keeps (save_beside R)) hrun

theorem noticeStore_beside {R : Relay} {o : Oracle}
    (h : World.noticeStore R o st = .ok st') : Beside st st' := by
  unfold World.noticeStore at h
  split at h
  · obtain ⟨⟨u, b⟩, hrun, h⟩ := Check.bind_ok.mp h
    obtain rfl := Check.pure_ok.mp h
    exact run_keeps_beside (.bind (besideFrame_aside.publishNotice R) fun _ => save_beside R) hrun
  · obtain rfl := Except.ok.inj h
    exact .refl _

theorem finish_beside {t : Nat} (h : st.finish X t = .ok st') : Beside st st' := by
  unfold Store.finish at h
  split at h
  · obtain rfl := Except.ok.inj h
    exact .refl _
  · split at h
    · obtain ⟨_, -, h⟩ := Check.bind_ok.mp h
      obtain rfl := Check.pure_ok.mp h
      exact .of_eq rfl rfl rfl rfl rfl rfl
    · obtain rfl := Except.ok.inj h
      exact .refl _

theorem expireStore_beside {R : Relay} {o : Oracle} {t : Nat}
    (h : World.expireStore R o t st = .ok st') : Beside st st' := by
  unfold World.expireStore at h
  split at h
  · obtain rfl := Except.ok.inj h
    exact .refl _
  · split at h
    · obtain rfl := Except.ok.inj h
      exact .refl _
    · obtain ⟨⟨u, b⟩, hrun, h⟩ := Check.bind_ok.mp h
      obtain rfl := Check.pure_ok.mp h
      exact run_keeps_beside
        (.bind besideFrame_aside.expire fun _ => besideFrame_aside.check _) hrun

theorem enrollmentCandidate_beside (R : Relay) (q : Query) (v : Json) :
    StaysBeside (enrollmentCandidate R q v) :=
  .bind (.lift _) fun _ => .bind (besideFrame_aside.look _) fun _ => .bind (.failIf _ _) fun _ =>
    .bind (.require _ _) fun _ => .bind (.failIf _ _) fun _ =>
    .bind (enrollmentRequest_beside R _) fun _ => .bind (besideFrame_aside.check _) fun _ => .pure _

/-- The executing transaction of a request. -/
theorem stepExecute_aside {call : Call} {o : Oracle} (hact : w.acting ev = some call)
    (hup : w.uploading ev = none) :
    AsideStep X w id ev (stepExecute (w.relay X) o call (w.store id)).1 := by
  have hnone : ∀ {st' : Store} call x, w.uploading ev = some (call, x) →
      call.route = .envelopesPost ∨ call.route = .repair ∨ st' = w.store id := by
    intro st' call x h
    rw [hup] at h
    cases h
  have hsame : AsideStep X w id ev (w.store id) := .kept (.refl _) (fun _ _ _ => rfl) hnone
  unfold stepExecute
  split
  · exact hsame
  · split
    · rename_i reply b hrun
      dsimp only
      by_cases himport : call.route = .importChain
      · obtain ⟨x, x', hx, hm, rfl⟩ := run_ok hrun
        simp only [executeTx, himport, bind_ok, lift_ok, pure_ok] at hm
        obtain ⟨_, _, ⟨-, rfl⟩, _, _, ⟨-, rfl⟩, _, w₁, hstage, -, rfl⟩ := hm
        obtain ⟨mid, himp⟩ := stage_ok hstage
        obtain ⟨logId, hb⟩ := stage_beside _ hstage
        rw [hx] at himp hb
        exact .imported hact hup himport himp rfl hb
      · by_cases hreseed : call.route = .reseed
        · obtain ⟨x, x', hx, hm, rfl⟩ := run_ok hrun
          obtain ⟨hadm, y, w₁, hwrite, hsave, -⟩ := executeTx_write (by rw [hreseed]; rfl)
            (by rw [hreseed]; simp) himport hm
          simp only [writeRoute, hreseed, bind_ok, pure_ok] at hwrite
          obtain ⟨_, _, hre, -, rfl⟩ := hwrite
          have hsaved : Beside _ x'.cell.store := save_beside _ _ _ _ hsave
          obtain hcell | hb := reseed_beside _ hre
          · obtain ⟨c, hc, -⟩ := hadm.stored
            have hs := save_ok hsave
            rw [hcell, hx] at hsaved
            rw [hx] at hc
            refine .kept hsaved (fun _ _ _ => ?_) hnone
            rw [hs.stored, hs.chain, hcell, hx, hc, Store.cell]
            show some ((w.store id).chain.getD .unset) = some c
            rw [show (w.store id).chain = some c from hc]
            rfl
          · rw [hx] at hb
            exact .reseeded hact hup hreseed (hb.trans hsaved)
        · refine .kept (run_keeps_beside (executeTx_beside _ himport hreseed) hrun) ?_ hnone
          intro call' hact' hroute
          obtain rfl := Option.some.inj (hact.symm.trans hact')
          exact absurd hroute hreseed
    · exact hsame

/-- The transaction of one item of an upload. -/
theorem stepItem_aside {call : Call} {o : Oracle} {faults : Faults} {p : Progress}
    {x : Nat × Json} {rest : List (Nat × Json)} (hact : w.acting ev = some call)
    (hup : w.uploading ev = some (call, x)) (hid : call.chain = id) :
    AsideStep X w id ev (stepItem (w.relay X) o faults call p x rest (w.store id)).1 := by
  obtain he | ⟨y, b, hsome, hrun, he⟩ :=
    stepItem_run (w.relay X) o faults call p x rest (w.store id)
  · rw [he]
    exact .kept (.refl _) (fun _ _ _ => rfl) fun _ _ _ => .inr (.inr rfl)
  · obtain ⟨v, v', hv, hm, rfl⟩ := run_ok hrun
    obtain ⟨hdel, -, mid, hmoved, hsaved⟩ := uploadItem_ok hm
    have hb := uploadItem_beside _ hm
    rw [hv] at hdel hmoved hb
    rw [he]
    split at hb
    · rename_i hroute
      refine .kept hb (fun call' hact' hreseed => ?_) fun call' x' hup' => ?_
      · obtain rfl := Option.some.inj (hact.symm.trans hact')
        rw [hreseed] at hroute
        simp at hroute
      · cases hup.symm.trans hup'
        exact hroute.imp_right .inl
    · rename_i hnot
      exact .uploaded ⟨hup, hid, fun h => hnot (.inl h), fun h => hnot (.inr h), hdel, hsome,
        hmoved, hsaved, hb⟩ rfl

/-- What a step of the relay does beside the ledger, unless it erases it. -/
theorem Txn.beside (h : Txn X w id ev st') :
    AsideStep X w id ev st' ∨ (w.store id).pending = true ∧ st' = (w.store id).cleared := by
  have silent : w.acting ev = none → Beside (w.store id) st' →
      AsideStep X w id ev st' ∨ (w.store id).pending = true ∧ st' = (w.store id).cleared :=
    fun hact hb => by
      refine .inl (.kept hb (fun call hc => absurd hc (by simp [hact])) fun call x hup => ?_)
      simp [World.uploading_acting hup] at hact
  cases h with
  | kept => exact .inl (.kept (.refl _) (fun _ _ _ => rfl) fun _ _ _ => .inr (.inr rfl))
  | executed ht hid =>
      exact .inl (stepExecute_aside (by simp [World.acting, ht, Except.toOption])
        (by simp [World.uploading, ht]))
  | item ht hid hrem =>
      exact .inl (stepItem_aside (by simp [World.acting, ht])
        (by simp [World.uploading, ht, hrem]) hid)
  | itemAudit ht _ =>
      exact silent (by simp [World.acting, ht]) (stepItemAudit_beside _ _ _ _ _ _ _ _)
  | audit ht _ => exact silent (by simp [World.acting, ht]) (stepAudit_beside _ _ _ _ _)
  | erased ht =>
      by_cases hp : (w.store id).pending = true
      · exact .inr ⟨hp, if_pos hp⟩
      · refine silent (by simp [World.acting, ht]) ?_
        rw [Store.erase, if_neg hp]
        exact .refl _
  | finished ht h => exact silent (by simp [World.acting, ht]) (finish_beside h)
  | notice ht h => exact silent (by simp [World.acting, ht]) (noticeStore_beside h)
  | enrollment _ h =>
      exact silent (by simp [World.acting])
        (run_keeps_beside (enrollmentCandidate_beside _ _ _) h)
  | expired h => exact silent (by simp [World.acting]) (expireStore_beside h)

/-- A chain that is left undeleted was not erased. -/
theorem Txn.aside (h : Txn X w id ev st') (hdel : st'.deletion = none) :
    AsideStep X w id ev st' := by
  obtain ha | ⟨hp, rfl⟩ := h.beside
  · exact ha
  · have hd : (w.store id).deletion = none := hdel
    rw [Store.pending, hd] at hp
    cases hp

end Steps

end PallaSync
