import PallaSync.Holdings
import PallaSync.Sample

/-!
# Payload nonces

Under one epoch a payload nonce belongs to one record. The store reserves the
nonces of the records and snapshot parts it takes; the reservation itself
never refuses, so the law rests on the check before it, which a part staged
for the next generation does not pass through.
-/

namespace PallaSync

open Machine

/-- The nonce of every record and every part that is held is reserved to it. -/
def Store.Reserved (st : Store) : Prop :=
  ∀ k v, k.control = false → st.Has k v →
    st.nonceOwner (n v "epoch") (s v "payload_nonce") = some (s v "record_id")

/-- A part the admin stages for the generation to come, and that is not stored
yet, names a nonce no other record has reserved. -/
def FreshStaging (id : String) (w : World) (ev : Event) : Prop :=
  ∀ call index r, w.uploading ev = some (call, index, r) → call.chain = id →
    call.route = .partsPost → call.auth.admin = true → (w.store id).imports.isSome →
    n r "generation" = ((w.store id).chain.getD .unset).generation + 1 →
    (w.store id).objectDigest .snapshotPart (s r "record_id") = none →
    nonceFree (w.store id) r = .ok ()

section Check

variable {X : Crypto} {st : Store} {c : Chain} {v : Json} {auth : Auth} {snapshot staged : Bool}
  {duplicate : Bool}

/-- A record that is accepted was stored before, or passed the shortcut of the
generation to come, or found its nonce free. -/
theorem record_ok (h : record X st c v auth snapshot staged = .ok duplicate) :
    (st.objectDigest (if snapshot then .snapshotPart else .record) (s v "record_id")).isSome ∨
      st.objectDigest (if snapshot then .snapshotPart else .record) (s v "record_id") = none ∧
        (staged = true ∧ auth.admin = true ∧ n v "generation" = c.generation + 1 ∨
          nonceFree st v = .ok ()) := by
  simp only [record, Check.bind_ok] at h
  obtain ⟨_, -, _, -, _, -, h⟩ := h
  cases hdigest : st.objectDigest (if snapshot then .snapshotPart else .record)
      (s v "record_id") with
  | some digest => exact .inl rfl
  | none =>
      refine .inr ⟨rfl, ?_⟩
      rw [hdigest] at h
      dsimp only at h
      rcases Check.ite_ok.mp h with ⟨hgen, -⟩ | ⟨-, h⟩
      · simp only [Bool.and_eq_true, beq_iff_eq] at hgen
        exact .inl ⟨hgen.1.1, hgen.1.2, hgen.2⟩
      · rcases Check.ite_ok.mp h with ⟨-, h⟩ | ⟨-, h⟩
        · obtain ⟨_, -, h⟩ := Check.bind_ok.mp h
          obtain ⟨_, hfree, -⟩ := Check.bind_ok.mp h
          exact .inr hfree
        · obtain ⟨_, -, h⟩ := Check.bind_ok.mp h
          obtain ⟨_, hfree, -⟩ := Check.bind_ok.mp h
          exact .inr hfree

end Check

section Reservation

variable {st st' : Store} {v : Json} {epoch : Nat} {nonce owner : String}

theorem nonceOwner_reserve (st : Store) (v : Json) (epoch : Nat) (nonce : String) :
    (st.reserve v).nonceOwner epoch nonce = if (epoch, nonce) = (reservation v).key then
      some ((st.nonceOwner epoch nonce).getD (s v "record_id")) else st.nonceOwner epoch nonce := by
  rw [Store.nonceOwner, Store.reserve, Table.find?_insertIgnore, Store.nonceOwner]
  split
  · cases st.payloadNonces.find? (epoch, nonce) <;> rfl
  · rfl

/-- A reservation is kept by the reservations after it. -/
theorem nonceOwner_kept (h : st.nonceOwner epoch nonce = some owner) (v : Json) :
    (st.reserve v).nonceOwner epoch nonce = some owner := by
  rw [nonceOwner_reserve, h]
  split <;> rfl

/-- A free nonce is reserved to the record that finds it so. -/
theorem nonceOwner_of_free (h : nonceFree st v = .ok ()) :
    (st.reserve v).nonceOwner (n v "epoch") (s v "payload_nonce") = some (s v "record_id") := by
  refine (nonceOwner_reserve _ _ _ _).trans ((if_pos rfl).trans ?_)
  cases howner : st.nonceOwner (n v "epoch") (s v "payload_nonce") with
  | none => rfl
  | some owner =>
      simp only [nonceFree, howner, Option.any_some, Check.failIf_ok, bne_eq_false_iff_eq] at h
      rw [Option.getD_some, h]

theorem nonceOwner_congr (h : st'.payloadNonces = st.payloadNonces) (epoch : Nat)
    (nonce : String) : st'.nonceOwner epoch nonce = st.nonceOwner epoch nonce := by
  rw [Store.nonceOwner, Store.nonceOwner, h]

end Reservation

/-! ## Uploads -/

section Uploads

variable {X : Crypto} {L L' : Ledger} {v : Json}

/-- A stored record is not logged a second time. -/
theorem Sound.logged_again (hs : Sound X L) {entry : Option LogEntry} {r : Receipt}
    (hl : Logged X .record v entry r L L')
    (ho : (L.objects.find? (.record, s v "record_id")).isSome) : L' = L := by
  cases hl with
  | again _ => rfl
  | fresh hf =>
      obtain ⟨o, ho⟩ := Option.isSome_iff_exists.mp ho
      have hok := hs.object_of_find? ho
      have hkey : o.key = (.record, s v "record_id") := Table.key_of_find? ho
      have hplaced := hok.placed (hok.record (Prod.mk.inj hkey).1)
      rw [show (o.kind, o.objectId) = _ from hkey,
        show L.receipts.find? (.record, s v "record_id") = none from hf.receipted.free] at hplaced
      cases hplaced

end Uploads

section Steps

variable {X : Crypto} {cfg : RelayConfig} {w : World} {id : String} {ev : Event}

/-- What an uploaded record or part found, before its nonce was reserved. -/
theorem ItemMoved.found {R : Relay} {call : Call} {index : Nat} {r : Json} {st : Store} {b : Cell}
    (h : ItemMoved R call index r st.cell b) (hs : st.Holds (Settled R.crypto id))
    (hdel : st.deletion = none) (he : call.route ≠ .envelopesPost) (hr : call.route ≠ .repair)
    (hposted : call.route ≠ .partsPost → call.auth.admin = false) :
    b.ledger.objects = st.objects ∧ b.ledger.log = st.log ∨ nonceFree st r = .ok () ∨
      call.route = .partsPost ∧ call.auth.admin = true ∧ st.imports.isSome ∧
        n r "generation" = (st.chain.getD .unset).generation + 1 ∧
        st.objectDigest .snapshotPart (s r "record_id") = none := by
  have hsound : (∃ k, (st.objects.find? (k, s r "record_id")).isSome) →
      Sound R.crypto st.cell.ledger := fun ⟨k, ho⟩ => by
    cases hc : st.chain with
    | none =>
        rw [show st.objects.find? _ = none from (hs.bare hdel hc).objects _] at ho
        cases ho
    | some c =>
        rw [Store.cell_of hc]
        exact (hs.ledger hdel hc).sound
  cases h with
  | envelope hroute => exact absurd hroute he
  | repair hroute => exact absurd hroute hr
  | part hroute hrec hm =>
      obtain hstored | ⟨hnone, ⟨hstaged, hadmin, hgen⟩ | hfree⟩ := record_ok hrec
      · obtain _ | ⟨hstep, hnil⟩ := hm.steps
        obtain _ | _ := hnil
        have hsame := hstep.part_again (objectDigest_isSome ▸ hstored)
        exact .inl ⟨congrArg Ledger.objects hsame, congrArg Ledger.log hsame⟩
      · exact .inr (.inr ⟨hroute, hadmin, hstaged, hgen, hnone⟩)
      · exact .inr (.inl hfree)
  | record _ _ hroute _ hrec hm =>
      obtain hstored | ⟨hnone, ⟨hstaged, hadmin, hgen⟩ | hfree⟩ := record_ok hrec
      · obtain _ | ⟨hstep, hnil⟩ := hm.steps
        obtain _ | _ := hnil
        cases hstep with
        | log _ hl =>
            have ho := objectDigest_isSome ▸ hstored
            have hsame := (hsound ⟨_, ho⟩).logged_again hl ho
            exact .inl ⟨congrArg Ledger.objects hsame, congrArg Ledger.log hsame⟩
      · rw [hposted hroute] at hadmin
        cases hadmin
      · exact .inr (.inl hfree)

/-- No step takes a reservation away, unless it erases the store. -/
theorem AsideStep.nonceOwner {st' : Store} (h : AsideStep X w id ev st') {epoch : Nat}
    {nonce owner : String} (ho : (w.store id).nonceOwner epoch nonce = some owner) :
    st'.nonceOwner epoch nonce = some owner := by
  cases h with
  | kept hb _ _ => rwa [nonceOwner_congr hb.payloadNonces]
  | imported _ _ _ _ _ hb | reseeded _ _ _ hb =>
      rw [nonceOwner_congr hb.payloadNonces]
      exact ho
  | uploaded hup hst =>
      rw [hst, nonceOwner_congr hup.beside.payloadNonces]
      exact nonceOwner_kept ho _

/-- An upload is by a device, unless it is one of parts. -/
theorem Call.Batched.posts {call : Call} (h : call.Batched) (he : call.route ≠ .envelopesPost)
    (hr : call.route ≠ .repair) (hp : call.route ≠ .partsPost) : call.auth.admin = false := by
  refine h.posted ?_
  have hupload := h.upload
  revert hupload he hr hp
  cases call.route <;> simp [Route.isUpload]

/-- A step reserves the nonce of every record it stores. -/
theorem step_reserved (hw : w.Bounded cfg) (hs : (w.store id).Holds (Settled X id))
    (hC : FreshStaging id w ev) (h : (w.store id).Reserved) :
    ((w.step X ev).store id).Reserved := by
  intro k v hk hv
  have htxn := step_txn X w ev id
  have kept : (w.store id).Has k v → ((w.step X ev).store id).nonceOwner (n v "epoch")
      (s v "payload_nonce") = some (s v "record_id") := fun hold => by
    obtain haside | ⟨-, hcleared⟩ := htxn.beside
    · exact haside.nonceOwner (h k v hk hold)
    · rw [hcleared] at hv
      obtain ⟨_, _, hfind, -⟩ | ⟨_, _, _, hfind, -⟩ := hv <;> cases hfind
  obtain hold | ⟨call, index, mid, b, hup, hst⟩ := htxn.payload hk hv
  · exact kept hold
  · have hbatch := uploading_batched hw hup.event
    obtain ⟨hobj, hlog⟩ | hfree := hup.moved.found hs hup.live hup.noEnvelope hup.noRepair
      (hbatch.posts hup.noEnvelope hup.noRepair)
    · rw [hst] at hv
      exact kept (Ledger.Has.congr (hup.saved.ledger ▸ hv) hobj hlog)
    · have hfree : nonceFree (w.store id) v = .ok () := by
        obtain hfree | ⟨hroute, hadmin, himports, hgen, hnone⟩ := hfree
        · exact hfree
        · exact hC _ _ _ hup.event hup.chain hroute hadmin himports hgen hnone
      rw [hst, nonceOwner_congr hup.beside.payloadNonces]
      exact nonceOwner_of_free hfree

/-- Under one epoch no payload nonce is shared by two records, in every run in
which each part the admin stages for a generation to come has a nonce of its
own. -/
theorem payload_nonce_unshared (X : Crypto) (cfg : RelayConfig) (id : String) (es : List Event)
    (hes : StepsMeet (World.step X) (FreshStaging id) (World.initial cfg) es)
    {k k' : Kind} {v v' : Json} (hk : k.control = false) (hk' : k'.control = false)
    (hv : (storeAfter X cfg es id).Has k v) (hv' : (storeAfter X cfg es id).Has k' v')
    (hepoch : n v "epoch" = n v' "epoch")
    (hnonce : s v "payload_nonce" = s v' "payload_nonce") :
    s v "record_id" = s v' "record_id" := by
  have hres : (storeAfter X cfg es id).Reserved :=
    store_invariant_of (C := FreshStaging id)
      (fun k v _ hv => by obtain ⟨_, _, hfind, -⟩ | ⟨_, _, _, hfind, -⟩ := hv <;> cases hfind)
      (fun w ev hw hs hC h => step_reserved hw hs hC h) hes
  have h := hres k v hk hv
  rw [hepoch, hnonce, hres k' v' hk' hv'] at h
  exact (Option.some.inj h).symm

end Steps

namespace Sample

/-- The admin stages two parts of the generation to come with the nonces given. -/
def stagingRun (nonce nonce' : Nat) : List Event :=
  genesisRun ++ perform 1 1 (importRequest [epoch0]) ++
    upload 2 2 2 (partsRequest 4 [syncRecord 80 1 1 nonce, syncRecord 81 1 1 nonce'])

def storesPart (st : Store) (k nonce : Nat) : Bool :=
  (st.objects.find? (.snapshotPart, uid k)).any fun o =>
    decide (o.body = some (syncRecord k 1 1 nonce))

theorem has_of_storesPart {st : Store} {k nonce : Nat} (h : storesPart st k nonce = true) :
    st.Has .snapshotPart (syncRecord k 1 1 nonce) := by
  obtain ⟨o, ho, hbody⟩ := (Option.any_eq_true _ _).mp h
  exact .inl ⟨_, o, ho, by simpa using hbody⟩

theorem stagingRun_facts :
    (stepsAll (World.step crypto) (fun w ev => (w.uploading ev).all fun x =>
        (nonceFree (w.store x.1.chain) x.2.2).isOk) (.initial cfg) (stagingRun 5 6) &&
      storesPart (storeAfter crypto cfg (stagingRun 5 6) chainId) 80 5 &&
      storesPart (storeAfter crypto cfg (stagingRun 5 6) chainId) 81 6) = true := by
  decide +kernel

end Sample

/-- Two parts staged with nonces of their own. -/
theorem payload_nonce_unshared_run :
    s (Sample.syncRecord 80 1 1 5) "payload_nonce" ≠
      s (Sample.syncRecord 81 1 1 6) "payload_nonce" := by
  have hfacts := Sample.stagingRun_facts
  simp only [Bool.and_eq_true] at hfacts
  obtain ⟨⟨hfresh, hfirst⟩, hsecond⟩ := hfacts
  have hmeet : StepsMeet (World.step Sample.crypto) (FreshStaging Sample.chainId)
      (World.initial Sample.cfg) (Sample.stagingRun 5 6) := by
    refine stepsMeet_of_all (fun w ev hall call index r hup hid _ _ _ _ _ => ?_) hfresh
    rw [hup, Option.all_some, hid] at hall
    cases hfree : nonceFree (w.store Sample.chainId) r with
    | ok u => rfl
    | error e =>
        rw [hfree] at hall
        cases hall
  intro hnonce
  have hsame := payload_nonce_unshared Sample.crypto Sample.cfg Sample.chainId _ hmeet rfl rfl
    (Sample.has_of_storesPart hfirst) (Sample.has_of_storesPart hsecond) rfl hnonce
  exact absurd hsame (by decide)

/-- Two parts of the generation to come are stored under one epoch and one
nonce, staged by the admin one after the other. -/
theorem staged_parts_share_nonce : ∃ es v v',
    (storeAfter Sample.crypto Sample.cfg es Sample.chainId).Has .snapshotPart v ∧
    (storeAfter Sample.crypto Sample.cfg es Sample.chainId).Has .snapshotPart v' ∧
    n v "epoch" = n v' "epoch" ∧ s v "payload_nonce" = s v' "payload_nonce" ∧
    s v "record_id" ≠ s v' "record_id" := by
  have hrun : (Sample.storesPart (storeAfter Sample.crypto Sample.cfg (Sample.stagingRun 5 5)
        Sample.chainId) 80 5 &&
      Sample.storesPart (storeAfter Sample.crypto Sample.cfg (Sample.stagingRun 5 5)
        Sample.chainId) 81 5) = true := by
    decide +kernel
  obtain ⟨hfirst, hsecond⟩ := Bool.and_eq_true_iff.mp hrun
  exact ⟨_, _, _, Sample.has_of_storesPart hfirst, Sample.has_of_storesPart hsecond, rfl, rfl,
    by decide⟩

end PallaSync
