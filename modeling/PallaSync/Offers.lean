import PallaSync.Listings

/-!
# Enrollment offers

An offer is made by a device, is given one request, and is decided once. The
rows of the offers are copied like those of the registry, so the requests are
listed as they stood when the first page was answered.
-/

namespace PallaSync

open Atomic Machine

/-! ## The life of an offer -/

/-- What a row says of an offer. -/
structure OfferState where
  offer : Json
  request : Option Json
  status : OfferStatus

def OfferRow.state (r : OfferRow) : OfferState := ⟨r.offer, r.request, r.status⟩

def OfferHistoryRow.state (h : OfferHistoryRow) : OfferState := ⟨h.offer, h.request, h.status⟩

namespace OfferState

/-- An offer that was just made. -/
def New (e : OfferState) : Prop := e.request = none ∧ e.status = .awaitingApproval

/-- What becomes of an offer: it is given its request, or it is decided. -/
inductive Next : OfferState → OfferState → Prop where
  | requested {e} (r : Json) : e.status = .awaitingApproval → e.request = none →
      Next e { e with request := some r }
  | decided {e} (status : OfferStatus) : e.status = .awaitingApproval → e.request.isSome →
      status ≠ .awaitingApproval → Next e { e with status }

variable {e f : OfferState}

/-- What an offer says is said for good, and so are its request and the decision. -/
theorem Next.stays (h : Relation.ReflTransGen Next e f) :
    f.offer = e.offer ∧ (∀ r, e.request = some r → f.request = some r) ∧
      (e.status ≠ .awaitingApproval → f = e) := by
  induction h with
  | refl => exact ⟨rfl, fun _ h => h, fun _ => rfl⟩
  | tail _ hn ih =>
      obtain ⟨hoffer, hrequest, hstatus⟩ := ih
      cases hn with
      | requested r hopen hnone =>
          refine ⟨hoffer, fun x hx => ?_, fun hclosed => ?_⟩
          · rw [hrequest x hx] at hnone
            cases hnone
          · obtain rfl := hstatus hclosed
            exact absurd hopen hclosed
      | decided status hopen _ _ =>
          refine ⟨hoffer, hrequest, fun hclosed => ?_⟩
          obtain rfl := hstatus hclosed
          exact absurd hopen hclosed

/-- A decision is about a request. -/
theorem Next.about (h : Next e f) : f.status ≠ .awaitingApproval → f.request.isSome := by
  cases h with
  | requested r _ _ => exact fun _ => rfl
  | decided status _ hsome _ => exact fun _ => hsome

end OfferState

open OfferState

/-! ## Versions -/

/-- The history of the offers. -/
def offerCopying : Copying OfferRow OfferHistoryRow String OfferState where
  key := OfferRow.requestId
  content := OfferRow.state
  copy i r := {
    id := i, requestId := r.requestId, offer := r.offer, request := r.request, status := r.status }
  number := OfferHistoryRow.id
  owner := OfferHistoryRow.requestId
  copied := OfferHistoryRow.state
  number_copy _ _ := rfl
  owner_copy _ _ := rfl
  copied_copy _ _ := rfl

/-- The offers and their history belong together. -/
def Store.Offered (st : Store) : Prop := offerCopying.Versioned New Next st.offerHistory st.offers

/-- Copies are added to the history of the offers, which goes on telling what
became of each. -/
structure Store.Decides (st st' : Store) : Prop where
  versions : st.offerHistory <+: st'.offerHistory
  offered : st.Offered → st'.Offered

namespace Store.Decides

variable {st st' st'' : Store}

theorem of_eq (ho : st'.offers = st.offers) (hv : st'.offerHistory = st.offerHistory) :
    st.Decides st' := by
  refine ⟨hv ▸ List.prefix_refl _, fun h => ?_⟩
  rw [Store.Offered, ho, hv]
  exact h

theorem refl (st : Store) : st.Decides st := .of_eq rfl rfl

theorem trans (h : st.Decides st') (h' : st'.Decides st'') : st.Decides st'' :=
  ⟨h.versions.trans h'.versions, fun ho => h'.offered (h.offered ho)⟩

theorem insert {row : OfferRow} (h : st.insertOffer row = some st') (hnone : row.request = none)
    (hopen : row.status = .awaitingApproval) : st.Decides st' := by
  obtain ⟨tab, htab, rfl⟩ := Option.map_eq_some_iff.mp h
  exact ⟨List.prefix_append _ _, fun ho => Copying.Versioned.insert ho htab ⟨hnone, hopen⟩⟩

theorem update {id : String} {row : OfferRow} {f : OfferRow → OfferRow}
    {hf : ∀ r, (f r).requestId = r.requestId} (hrow : st.offers.find? id = some row)
    (hnext : Next row.state (f row).state) : st.Decides (st.updateOffer id f hf) := by
  refine ⟨List.prefix_append _ _, fun ho => Copying.Versioned.update hf ho fun r hr hid => ?_⟩
  have hfind := Table.find?_of_mem hr
  rw [show r.requestId = id from beq_iff_eq.mp hid] at hfind
  obtain rfl := Option.some.inj (hrow.symm.trans hfind)
  exact hnext

end Store.Decides

/-- `Store.Decides`, for the stores of a transaction. -/
def offerFrame : Frame Work where
  rel w w' := w.cell.store.Decides w'.cell.store
  refl w := .refl w.cell.store
  trans := .trans

/-- The offers and their history as they were. -/
def stillFrame : Frame Work where
  rel w w' := w'.cell.store.offers = w.cell.store.offers ∧
    w'.cell.store.offerHistory = w.cell.store.offerHistory
  refl _ := ⟨rfl, rfl⟩
  trans h h' := ⟨h'.1.trans h.1, h'.2.trans h.2⟩

section Programs

variable (R : Relay)

theorem aside_offers {st st' : Store} (h : st'.aside = st.aside) :
    st'.offers = st.offers ∧ st'.offerHistory = st.offerHistory := by
  simp only [Store.aside, Store.mk.injEq] at h
  exact ⟨h.2.2.2.2.2.2.2.2.2.1, h.2.2.2.2.2.2.2.2.2.2.2.2.2.1⟩

theorem stillFrame_aside : Aside stillFrame where
  still _ _ h _ := aside_offers h

theorem offerFrame_aside : SavedAside offerFrame where
  still _ _ h _ := .of_eq (aside_offers h).1 (aside_offers h).2
  save R w u w' h := by
    obtain ⟨cut, -, hw, -⟩ := save_published R h
    show w.cell.store.Decides w'.cell.store
    rw [hw]
    exact .of_eq rfl rfl

theorem outcome_offers (scope : OutcomeScope) (id : String) (payload response : Json) :
    Keeps stillFrame (outcome R.crypto scope id payload response) := by
  intro w u w' h
  obtain ⟨st, hst, rfl⟩ := attempt_ok.mp h
  obtain ⟨tab, -, rfl⟩ := Option.map_eq_some_iff.mp hst
  exact ⟨rfl, rfl⟩

theorem outcome_decides (scope : OutcomeScope) (id : String) (payload response : Json) :
    Keeps offerFrame (outcome R.crypto scope id payload response) := fun w u w' h => by
  obtain ⟨ho, hv⟩ := outcome_offers R scope id payload response w u w' h
  exact .of_eq ho hv

/-- The end of a decision, when the row is still the one that was found open. -/
theorem decision_decides {st : Store} {w w' : Work} {row : OfferRow} {id : String}
    {status : OfferStatus} {scope : OutcomeScope} {v : Json} {result x : Nat × Json}
    (h : (do
      let c ← chain
      setStore (·.updateOffer id (fun r => { r with status, updatedSeq := c.headSeq }) fun _ => rfl)
      outcome R.crypto scope id v result.2
      pure result : Tx (Nat × Json)) w = .ok (x, w'))
    (hrow : st.offers.find? id = some row) (hopen : row.status = .awaitingApproval)
    (hrequest : row.request.isSome) (hstatus : status ≠ .awaitingApproval)
    (ho : w.cell.store.offers = st.offers) (hv : w.cell.store.offerHistory = st.offerHistory) :
    st.Decides w'.cell.store := by
  simp only [bind_ok, chain_ok, setStore_ok, pure_ok] at h
  obtain ⟨_, _, ⟨rfl, rfl⟩, _, w₁, rfl, _, w₂, hout, -, rfl⟩ := h
  have hbefore : st.Decides w.cell.store := .of_eq ho hv
  have hfound : w.cell.store.offers.find? id = some row := ho ▸ hrow
  exact (hbefore.trans (.update hfound (.decided _ hopen hrequest hstatus))).trans
    (outcome_decides R _ _ v _ _ _ _ hout)

/-- The decision finds the offer open: nothing that comes before it in the
transaction writes the row. -/
theorem approve_decides (auth : Auth) (id : String) (v : Json) (reject : Bool) :
    Keeps offerFrame (approve R auth id v reject) := by
  intro w x w' h
  show w.cell.store.Decides w'.cell.store
  simp only [approve, bind_ok, look_ok, require_ok, failIf_ok] at h
  obtain ⟨_, _, ⟨rfl, rfl⟩, row, _, ⟨hrow, rfl⟩, request, _, ⟨hrequest, rfl⟩, _, _, ⟨-, rfl⟩,
    before, _, hbefore, h⟩ := h
  obtain ⟨-, rfl⟩ := check_ok.mp hbefore
  cases before with
  | some response =>
      obtain ⟨-, rfl⟩ := pure_ok.mp h
      exact .refl _
  | none =>
      simp only [bind_ok, now_ok, failIf_ok, chain_ok] at h
      obtain ⟨_, _, ⟨-, rfl⟩, _, _, ⟨hopen, rfl⟩, _, _, ⟨-, rfl⟩, _, _, ⟨-, rfl⟩, h⟩ := h
      rw [Bool.or_eq_false_iff, bne_eq_false_iff_eq] at hopen
      have hsome : row.request.isSome := Option.isSome_iff_exists.mpr ⟨request, hrequest⟩
      rcases ite_ok.mp h with ⟨rfl, h⟩ | ⟨hreject, h⟩
      · obtain ⟨result, w₁, hresult, h⟩ := bind_ok.mp h
        obtain ⟨-, rfl⟩ := lift_ok.mp hresult
        exact decision_decides R h hrow hopen.1 hsome OfferStatus.noConfusion rfl rfl
      · obtain rfl := Bool.of_not_eq_true hreject
        obtain ⟨result, w₁, hresult, h⟩ := bind_ok.mp h
        obtain ⟨ho, hv⟩ := stillFrame_aside.enroll R auth v (some request)
          (outcome_offers R _ _ v) _ _ _ hresult
        exact decision_decides R h hrow hopen.1 hsome OfferStatus.noConfusion ho hv

/-- An offer is given a request that repeats it, once. -/
theorem enrollmentRequest_decides (v : Json) : Keeps offerFrame (enrollmentRequest R v) := by
  intro w x w' h
  show w.cell.store.Decides w'.cell.store
  obtain ⟨row, hrow, hcell | ⟨hnone, hopen, hcell⟩⟩ := enrollmentRequest_ok R h
  · exact hcell ▸ .refl _
  · rw [hcell]
    exact .update hrow (.requested v hopen hnone)

theorem offerFrame_steadfast : Steadfast offerFrame where
  toSavedAside := offerFrame_aside
  outcome R := outcome_decides R
  offer R auth v := offerFrame_aside.toAside.offer R auth v
    (fun row _ hnone hopen w u w' h => by
      obtain ⟨st, hst, rfl⟩ := attempt_ok.mp h
      exact .insert hst hnone hopen)
    (outcome_decides R _ _ v)
  decides R auth id v reject := approve_decides R auth id v reject
  requests R := enrollmentRequest_decides R
  imports _ w u w' h := by
    obtain rfl := setStore_ok.mp h
    exact .of_eq rfl rfl
  nonces _ w u w' h := by
    obtain rfl := setStore_ok.mp h
    exact .of_eq rfl rfl

end Programs

/-! ## Offers along a run -/

section Runs

variable (X : Crypto) (cfg : RelayConfig) (es es' : List Event) (id q : String)

theorem store_decides (hdel : (storeAfter X cfg (es ++ es') id).deletion = none) :
    (storeAfter X cfg es id).Decides (storeAfter X cfg (es ++ es') id) :=
  offerFrame_steadfast.store (fun _ _ h => h) .refl .trans X cfg es es' id hdel

theorem store_offered (hdel : (storeAfter X cfg es id).deletion = none) :
    (storeAfter X cfg es id).Offered :=
  (store_decides X cfg [] es id hdel).offered .blank

/-- What a later history says of an earlier version is what the offers said
then. Since then an offer was given its one request, or was decided once, and
nothing else became of it. -/
theorem offer_versions (hdel : (storeAfter X cfg (es ++ es') id).deletion = none) :
    (offerCopying.upTo (storeAfter X cfg (es ++ es') id).offerHistory q
        (storeAfter X cfg es id).offerHistory.length).getLast? =
      ((storeAfter X cfg es id).offers.find? q).map OfferRow.state ∧
    ∀ row, (storeAfter X cfg es id).offers.find? q = some row →
      (row.status ≠ .awaitingApproval → row.request.isSome) ∧
      ∃ row', (storeAfter X cfg (es ++ es') id).offers.find? q = some row' ∧
        Relation.ReflTransGen Next row.state row'.state ∧ row'.offer = row.offer ∧
        (∀ r, row.request = some r → row'.request = some r) ∧
        (row.status ≠ .awaitingApproval → row'.state = row.state) := by
  have hbefore := (store_earlier X cfg es es' id hdel).1
  have hfront := (store_decides X cfg es es' id hdel).versions
  have ho := store_offered X cfg es id hbefore
  have ho' := store_offered X cfg (es ++ es') id hdel
  refine ⟨ho.upTo_current ho' hfront q, fun row hrow => ⟨?_, ?_⟩⟩
  · refine ho.invariant (P := fun e => e.status ≠ .awaitingApproval → e.request.isSome)
      (fun e he hdecided => ?_) (fun _ _ hn _ => hn.about) hrow
    exact absurd he.2 hdecided
  · obtain ⟨row', hrow', hreach⟩ := ho.became ho' hfront hrow
    obtain ⟨hoffer, hrequest, hstatus⟩ := OfferState.Next.stays hreach
    exact ⟨row', hrow', hreach, hoffer, hrequest, hstatus⟩

end Runs

namespace Sample

open Json

def offersPath : String := chainPath ++ "/" ++ chainId ++ "/enrollment-offers"

/-- The first device makes the `k`-th offer. -/
def offerRequest (t k : Nat) : Request :=
  request .offer "POST" offersPath (token t (some 1) "POST" offersPath) ""
    (.obj [("expires_at_ms", .num 1900), ("offer_nonce", .str "a9"),
      ("request_id", .str (uid (k + 300)))])

def requestsPath : String := chainPath ++ "/" ++ chainId ++ "/enrollment-requests"

/-- The second device answers the `k`-th offer. -/
def candidate (k : Nat) : Json := .obj [
  ("chain_id", .str chainId), ("created_at_ms", .num 1400), ("device_id", .str (uid 2)),
  ("device_kex_public_key", .str "a4"), ("device_public_key", .str "a5"),
  ("expires_at_ms", .num 1800), ("generation", .num 0), ("offer_nonce", .str "a9"),
  ("request_id", .str (uid (k + 300))), ("signature", .str sig)]

def candidateRequest (k : Nat) : Request :=
  request .request "POST" requestsPath .null "" (candidate k)

/-- The second device, as the first one certifies it. -/
def peerDevice (k : Nat) : Json :=
  (device 2 0 0).set "enrollment" (((((device 2 0 0).get "enrollment").set "request_hash"
    (hashOf (candidate k))).set "signer_kind" (.str "device")).set "signer_device_id"
      (.str (uid 1)))

def approvalPath (k : Nat) : String := requestsPath ++ "/" ++ uid (k + 300) ++ "/approve"

/-- The first device approves the `k`-th request. -/
def approvalRequest (t k : Nat) : Request :=
  request .approve "POST" (approvalPath k) (token t (some 1) "POST" (approvalPath k))
    (uid (k + 300)) (.obj [("admin_operation", .null), ("device_record", peerDevice k),
      ("envelopes", .arr [envelope 71 0 0 .null (some 2)])])

/-- An offer is made and answered. -/
def offeredRun : List Event :=
  genesisRun ++ perform 1 1 (offerRequest 1 1) ++ [.request (candidateRequest 1) (oracle 1500 4)]

/-- The request is approved. -/
def approvedRun : List Event := perform 3 3 (approvalRequest 4 1)

theorem approvedRun_facts :
    ((storeAfter crypto cfg (offeredRun ++ approvedRun) chainId).deletion.isNone &&
      ((storeAfter crypto cfg offeredRun chainId).offers.find? (uid 301)).any (fun row =>
        decide (row.status = .awaitingApproval) && row.request.isSome) &&
      ((storeAfter crypto cfg (offeredRun ++ approvedRun) chainId).offers.find? (uid 301)).any
        fun row => decide (row.status = .approved)) = true := by
  decide +kernel

end Sample

/-- An approved offer keeps its request, and the history the offer as it was. -/
theorem offer_versions_approved : ∃ row row' : OfferRow,
    (storeAfter Sample.crypto Sample.cfg Sample.offeredRun Sample.chainId).offers.find?
      (Sample.uid 301) = some row ∧ row.status = .awaitingApproval ∧ row.request.isSome ∧
    (storeAfter Sample.crypto Sample.cfg (Sample.offeredRun ++ Sample.approvedRun)
      Sample.chainId).offers.find? (Sample.uid 301) = some row' ∧ row'.status = .approved ∧
    row'.request = row.request ∧
    (offerCopying.upTo (storeAfter Sample.crypto Sample.cfg
        (Sample.offeredRun ++ Sample.approvedRun) Sample.chainId).offerHistory (Sample.uid 301)
      (storeAfter Sample.crypto Sample.cfg Sample.offeredRun
        Sample.chainId).offerHistory.length).getLast? = some row.state := by
  have hfacts := Sample.approvedRun_facts
  simp only [Bool.and_eq_true] at hfacts
  obtain ⟨⟨hdel, hbefore⟩, hafter⟩ := hfacts
  obtain ⟨row, hrow, hopen⟩ := (Option.any_eq_true _ _).mp hbefore
  obtain ⟨last, hlast, hdone⟩ := (Option.any_eq_true _ _).mp hafter
  simp only [Bool.and_eq_true, decide_eq_true_eq] at hopen hdone
  obtain ⟨hcopy, hrows⟩ := offer_versions Sample.crypto Sample.cfg Sample.offeredRun
    Sample.approvedRun Sample.chainId (Sample.uid 301) (Option.isNone_iff_eq_none.mp hdel)
  obtain ⟨-, row', hrow', -, -, hrequest, -⟩ := hrows row hrow
  obtain rfl := Option.some.inj (hrow'.symm.trans hlast)
  obtain ⟨r, hr⟩ := Option.isSome_iff_exists.mp hopen.2
  rw [hrow] at hcopy
  exact ⟨row, row', hrow, hopen.1, hopen.2, hrow', hdone, (hrequest r hr).trans hr.symm, hcopy⟩

end PallaSync
