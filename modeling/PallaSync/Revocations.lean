import PallaSync.Origins

/-!
# Revocations

A request to revoke a device names it twice: in its path, and among the
revoked devices of the epoch in its body. The two are compared when the body
is executed for the first time, not when it is answered from the record; and
the record of an epoch is shared by all paths that accept one. So an answer of
success is a revocation of the device named in the path when the request is
executed, or when its body names the device as well (`revoke_revokes`), and
not in general (`replayed_revocation_spares`).
-/

namespace PallaSync

open Atomic Machine

/-! ## Revoked devices -/

/-- The device is registered, and revoked. -/
def Ledger.Revoked (L : Ledger) (id : String) : Prop :=
  ∃ r, L.registry.find? id = some r ∧ r.status = .revoked

theorem Store.status_revoked {st : Store} {id : String} (c : Chain) :
    st.status id = some .revoked ↔ (st.ledger c).Revoked id := Option.map_eq_some_iff

section Moves

variable {X : Crypto} {L L' : Ledger} {id : String}

/-- A revocation is not taken back. -/
theorem Step.revoked {m : Move} (h : Step X m L L') (hr : L.Revoked id) : L'.Revoked id := by
  obtain ⟨r, hrow, hstatus⟩ := hr
  have kept (he : L'.registry = L.registry) : L'.Revoked id := ⟨r, by rw [he]; exact hrow, hstatus⟩
  cases h with
  | log _ hl => exact kept hl.registry
  | enlist hl hd =>
      refine ⟨r, ?_, hstatus⟩
      rw [hd.find?, if_neg, hl.registry]
      · exact hrow
      · rintro rfl
        exact absurd ((hl.registry ▸ hd.free).symm.trans hrow) (by simp)
  | partAgain | setEpoch | found _ _ | reincarnate _ _ => exact ⟨r, hrow, hstatus⟩
  | part hp => exact kept hp.registry
  | evidence hw => exact kept hw.registry
  | stage _ hs => exact kept (by rw [hs.rest])
  | revoke hw =>
      refine ⟨_, by rw [hw.find?, hrow]; rfl, ?_⟩
      dsimp only [RegistryRow.revokeAt]
      split
      · rfl
      · exact hstatus
  | activate hw =>
      refine ⟨_, by rw [hw.find?, hrow]; rfl, ?_⟩
      dsimp only [RegistryRow.activateAs]
      rwa [if_neg fun h => h.2 hstatus]
  | prune hb _ _ _ _ => exact kept hb.registry
  | handoff _ he => exact kept (by rw [he])
  | expire _ hb _ _ => exact kept hb.registry

theorem Steps.revoked {ms : List Move} (h : Steps X ms L L') (hr : L.Revoked id) :
    L'.Revoked id :=
  h.preserves (C := fun _ => True) (fun _ _ _ _ hs => hs.revoked) (fun _ _ => trivial) hr

/-- A registered device that one of the moves revokes is revoked after them. -/
theorem Steps.revokes {ms : List Move} {seq : Nat} (h : Steps X ms L L')
    (hm : Move.revoke seq id ∈ ms) (hr : (L.registry.find? id).isSome) : L'.Revoked id := by
  induction h with
  | nil => cases hm
  | @cons m ms L M L' hstep hrest ih =>
      obtain rfl | hm := List.mem_cons.mp hm
      · obtain ⟨r, hrow⟩ := Option.isSome_iff_exists.mp hr
        have hkey : r.deviceId = id := (Table.find?_eq_some.mp hrow).2
        cases hstep with
        | revoke hw =>
            refine hrest.revoked ⟨_, by rw [hw.find?, hrow]; rfl, ?_⟩
            dsimp only [RegistryRow.revokeAt]
            rw [if_pos hkey]
      · exact ih hm (hstep.registered hr)

theorem Committed.revokes {commit : EpochCommit} {M M' : Ledger} {entry : Option LogEntry}
    {r : Receipt} (h : Committed X commit L M M' L' entry r)
    (hid : id ∈ strings commit.epoch "revoked_device_ids")
    (hr : (L.registry.find? id).isSome) : L'.Revoked id := by
  have hm : (M'.registry.find? id).isSome := by
    rw [h.logged.registry]
    exact h.before.registered hr
  have hin : Move.revoke (entrySeq entry) id ∈ commit.after (entrySeq entry) :=
    List.mem_append.mpr (.inl (List.mem_map_of_mem hid))
  exact h.after.revokes hin hm

end Moves

theorem existingDevices_registered {st : Store} {c : Chain} {genesis reseed : Bool} {id : String}
    (h : id ∈ existingDevices st c genesis reseed) : (st.registry.find? id).isSome := by
  rw [existingDevices, sortIds, List.mem_insertionSort] at h
  obtain ⟨r, hr, rfl⟩ := List.mem_map.mp h
  exact Table.find?_isSome.mpr ⟨r, (Table.mem_select.mp (List.mem_filter.mp hr).1).1, rfl⟩

/-- A committed epoch revokes whom it says, and the device of the path. -/
theorem Rotated.revokes {R : Relay} {auth : Auth} {v : Json} {device : Option String} {a b : Cell}
    (h : Rotated R auth v device a b) {id : String}
    (hid : id ∈ strings (v.get "epoch") "revoked_device_ids") : b.ledger.Revoked id := by
  obtain ⟨M, M', entry, r, hc⟩ := h.committed
  exact hc.revokes hid (existingDevices_registered
    ((epochCheck_ok h.checked).bundle.revokes id hid))

theorem Rotated.target {R : Relay} {auth : Auth} {v : Json} {id : String} {a b : Cell}
    (h : Rotated R auth v (some id) a b) : id ∈ strings (v.get "epoch") "revoked_device_ids" := by
  have hc := h.checked
  simp only [epochCheck, Check.bind_ok, Check.failIf_ok, Option.any_some, Bool.or_eq_false_iff,
    Bool.not_eq_false', List.contains_iff_mem] at hc
  obtain ⟨_, -, _, -, _, -, _, -, _, ⟨hmem, -⟩, -⟩ := hc
  exact mem_strings.mpr ⟨_, hmem, rfl⟩

/-! ## Runs -/

/-- Revoked devices stay revoked, unless the chain is deleted. -/
theorem store_revoked (X : Crypto) (cfg : RelayConfig) (es es' : List Event) (id : String) :
    (storeAfter X cfg es id).Keeps (fun L L' => ∀ d, L.Revoked d → L'.Revoked d)
      (storeAfter X cfg (es ++ es') id) :=
  ledger_keeps (K := fun L L' => ∀ d, L.Revoked d → L'.Revoked d) (fun _ _ _ h => h)
    (fun _ _ _ _ _ _ _ _ hK hp d hd => by
      obtain ⟨ms, hs, -⟩ := hp.steps
      exact hs.revoked (hK d hd)) es es'

theorem store_still_revoked (X : Crypto) (cfg : RelayConfig) (es es' : List Event)
    (id d : String) (hdel : (storeAfter X cfg (es ++ es') id).deletion = none)
    (hd : (storeAfter X cfg es id).status d = some .revoked) :
    (storeAfter X cfg (es ++ es') id).status d = some .revoked := by
  obtain ⟨hdel₁, hkept⟩ := store_revoked X cfg es es' id hdel
  cases hc : (storeAfter X cfg es id).chain with
  | none =>
      have hbare := (store_settled X cfg es id).bare hdel₁ hc
      obtain ⟨r, hr, -⟩ := (Store.status_revoked .unset).mp hd
      exact absurd (hr.symm.trans (hbare.registry d)) (by simp)
  | some c =>
      obtain ⟨c', -, hK⟩ := hkept c hc
      exact (Store.status_revoked c').mpr (hK d ((Store.status_revoked c).mp hd))

/-- An epoch that is answered was recorded before, or is committed now. -/
theorem epoch_cases {R : Relay} {auth : Auth} {v : Json} {device : Option String} {w w' : Work}
    {r : Nat × Json} (h : epoch R auth v device w = .ok (r, w')) :
    w'.cell = w.cell ∧ w.cell.store.Recorded R.crypto .epoch
        (R.crypto.objectHash (v.get "epoch")) v r.2 ∨
      w.cell.store.outcomes.find? (.epoch, R.crypto.objectHash (v.get "epoch")) = none ∧
        Rotated R auth v device w.cell w'.cell := by
  have hm := h
  simp only [epoch, bind_ok, lift_ok, check_ok] at h
  obtain ⟨_, _, ⟨-, rfl⟩, _, _, ⟨-, rfl⟩, before, _, ⟨hbefore, rfl⟩, h⟩ := h
  cases before with
  | some response =>
      obtain ⟨rfl, rfl⟩ := pure_ok.mp h
      exact .inl ⟨rfl, hbefore⟩
  | none =>
      refine .inr ⟨unrecorded_iff.mp hbefore, ?_⟩
      obtain hcell | hrot := epoch_ok hm
      · have hrec := epoch_records R auth v device _ _ _ hm
        rw [hcell, Store.Recorded, hbefore] at hrec
        cases hrec
      · exact hrot

section Runs

variable {X : Crypto} {cfg : RelayConfig} {id : String}

/-- What the executing transaction of an epoch request comes to. -/
theorem executeTx_epoch {R : Relay} {call : Call} {u u' : Work} {reply : Reply}
    (hroute : call.route = .epochsPost ∨ call.route = .revoke)
    (h : executeTx R call u = .ok (reply, u')) :
    ∃ x w₁, u'.cell.ledger = w₁.cell.ledger ∧ u'.cell.store.outcomes = w₁.cell.store.outcomes ∧
      epoch R call.auth call.value call.targetDevice u = .ok (x, w₁) ∧
      reply = .json x.1 x.2 := by
  have hget : call.route.isGet = false ∧ call.route ≠ .genesis ∧ call.route ≠ .importChain := by
    obtain he | he := hroute <;> rw [he] <;> simp [Route.isGet]
  obtain ⟨-, -, x, w₁, hwrite, -, hsave, -, hreply⟩ :=
    (executeTx_mutation hget.1 hget.2.1 hget.2.2).mp h
  obtain ⟨cut, -, hstore, -⟩ := save_published R hsave
  refine ⟨x, w₁, (save_ok hsave).ledger, by rw [hstore], ?_, hreply⟩
  unfold writeRoute at hwrite
  obtain he | he := hroute
  · rw [Call.targetDevice, he, if_neg (by simp)]
    simpa [he] using hwrite
  · rw [Call.targetDevice, he, if_pos rfl]
    simpa [he] using hwrite

/-- The devices of a recorded epoch are revoked, unless two bodies of the run
have one hash. -/
theorem recorded_epoch_revokes {es : List Event} {v r : Json}
    (hdel : (storeAfter X cfg es id).deletion = none)
    (hrec : (storeAfter X cfg es id).Recorded X .epoch (X.objectHash (v.get "epoch")) v r)
    {d : String} (hd : d ∈ strings (v.get "epoch") "revoked_device_ids") :
    (storeAfter X cfg es id).status d = some .revoked ∨ Collides X cfg es v := by
  obtain ⟨o, ho, hdigest, -⟩ := recorded_iff.mp hrec
  obtain ⟨es₁, ev, es₂, call, reply, u, u', hin, hrecords, hold, hnew⟩ := outcome_origin X cfg es ho
  obtain ⟨rfl, he, hstored⟩ := hin
  obtain hrecord | ⟨-, hscope⟩ := hrecords
  · have hroute : call.route = .epochsPost ∨ call.route = .revoke := by
      unfold Call.record at hrecord
      generalize call.route = route at hrecord ⊢
      cases route <;> simp at hrecord ⊢
    obtain ⟨x, w₁, hledger, houtcomes, hepoch, rfl⟩ := executeTx_epoch hroute he.executed
    obtain ⟨o', ho', hdigest', -⟩ := recorded_iff.mp (executeTx_records hrecord he.executed)
    obtain rfl := Option.some.inj (ho'.symm.trans hnew)
    by_cases hsame : call.value = v
    · refine .inl ?_
      rw [hsame] at hepoch
      obtain ⟨hcell, -⟩ | ⟨-, hrot⟩ := epoch_cases hepoch
      · rw [houtcomes, hcell] at hnew
        exact absurd hnew hold
      · obtain ⟨hdel₁, hkept⟩ := store_revoked X cfg (es₁ ++ [ev]) es₂ id
          (by rwa [List.append_assoc, List.singleton_append])
        have hrevoked : (storeAfter X cfg (es₁ ++ [ev]) id).status d = some .revoked := by
          rw [hstored]
          have hrevokes := hrot.revokes hd
          rw [← hledger] at hrevokes
          exact (Store.status_revoked u'.cell.chain).mpr hrevokes
        have hlater := store_still_revoked X cfg (es₁ ++ [ev]) es₂ id d
        rw [List.append_assoc, List.singleton_append] at hlater
        exact hlater hdel hrevoked
    · exact .inr ⟨call.value, ⟨es₁, ev, es₂, call, rfl, he.acting, rfl⟩, hsame,
        hdigest'.symm.trans hdigest⟩
  · cases hscope

/-- After an answer of success to a request to revoke the device `call.param`,
that device is revoked if and only if the body was not on record, or the device
was revoked before. It is revoked, too, whenever the body names it, unless two
bodies of the run have one hash. -/
theorem revoke_revokes (X : Crypto) (cfg : RelayConfig) (es : List Event) {i : Nat} {o : Oracle}
    {faults : Faults} {call : Call} {v r : Json}
    (htask : (World.after X cfg es).tasks[i]? = some (.start call (.ok v)))
    (hroute : call.route = .revoke) (hanswer : (World.after X cfg es).Answers X i o faults r) :
    ((storeAfter X cfg (es ++ [.resume i o faults]) call.chain).status call.param =
        some .revoked ↔
      (storeAfter X cfg es call.chain).outcomes.find?
          (.epoch, X.objectHash (v.get "epoch")) = none ∨
        (storeAfter X cfg es call.chain).status call.param = some .revoked) ∧
    (call.param ∈ strings (v.get "epoch") "revoked_device_ids" →
      (storeAfter X cfg (es ++ [.resume i o faults]) call.chain).status call.param =
        some .revoked ∨ Collides X cfg es v) := by
  have hrecord : ({ call with value := v } : Call).record X =
      some (.epoch, X.objectHash (v.get "epoch")) := by
    unfold Call.record
    simp only [hroute]
  obtain ⟨hguard, hdel, status, b, hrun⟩ := (step_answers htask hrecord).mp hanswer
  have hcommit := step_commits faults htask hrecord hguard hdel hrun
  obtain ⟨u, u', hu, hexecuted, rfl⟩ := run_ok hrun
  have hrevoke : ({ call with value := v } : Call).route = .revoke := hroute
  obtain ⟨x, w₁, hledger, -, hepoch, -⟩ := executeTx_epoch (.inr hrevoke) hexecuted
  have hstored : storeAfter X cfg (es ++ [.resume i o faults]) call.chain = u'.cell.store := by
    rw [storeAfter, World.after, run_snoc]
    exact hcommit
  have hregistry : u'.cell.store.registry = w₁.cell.store.registry :=
    congrArg Ledger.registry hledger
  have htarget : ({ call with value := v } : Call).targetDevice = some call.param := if_pos hroute
  rw [hstored]
  obtain ⟨hcell, hrec⟩ | ⟨hfresh, hrot⟩ := epoch_cases hepoch
  · have hsame : u'.cell.store.status = (storeAfter X cfg es call.chain).status := by
      funext d
      rw [Store.status, hregistry, hcell, hu]
      rfl
    have hold : (storeAfter X cfg es call.chain).Recorded X .epoch (X.objectHash (v.get "epoch"))
        v x.2 := by
      rw [hu] at hrec
      exact hrec
    obtain ⟨row, hrow, -⟩ := recorded_iff.mp hold
    rw [hsame]
    refine ⟨⟨.inr, fun h => h.elim (fun hnone => ?_) id⟩, recorded_epoch_revokes hdel hold⟩
    exact absurd (hnone.symm.trans hrow) (by simp)
  · rw [htarget] at hrot
    have hrevoked : u'.cell.store.status call.param = some .revoked := by
      have hrevokes := hrot.revokes hrot.target
      rw [← hledger] at hrevokes
      exact (Store.status_revoked u'.cell.chain).mpr hrevokes
    rw [hu] at hfresh
    exact ⟨⟨fun _ => .inl hfresh, fun _ => hrevoked⟩, fun _ => .inl hrevoked⟩

end Runs

namespace Sample

/-- The admin enrolls a second device on the chain of `genesisRun`. -/
def secondDeviceRequest : Request :=
  request .enroll "POST" devicesPath (token 1 none "POST" devicesPath) ""
    (enrollmentBundle.set "admin_operation"
      (adminOp 72 "approve_enrollment" 0 (parameters 0 .null) epoch0 enrollmentBundle))

def revocationBundle : Json := .obj [
  ("envelopes", .arr [envelope 61 0 1 (hashOf epoch0) (some 1), recovery1]),
  ("epoch", epochRecord 0 1 (hashOf epoch0) "device_revocation" [1] [2] recovery1)]

/-- The epoch that revokes the second device. -/
def revocationBody : Json :=
  (revocationBundle.set "expected_epoch_hash" (hashOf epoch0)).set "admin_operation"
    (adminOp 73 "revoke_device" 0 (parameters 0 .null) epoch0 revocationBundle)

def revokePath (k : Nat) : String :=
  chainPath ++ "/" ++ chainId ++ "/devices/" ++ uid k ++ "/revoke"

/-- The admin sends the body to the path that revokes the `k`-th device. -/
def revokeRequest (t k : Nat) (body : Json) : Request :=
  request .revoke "POST" (revokePath k) (token t none "POST" (revokePath k)) (uid k) body

/-- A second device is enrolled; a request to revoke it arrives. -/
def revocationRun : List Event :=
  genesisRun ++ perform 1 1 secondDeviceRequest ++
    [.request (revokeRequest 2 2 revocationBody) (oracle 1500 4)]

def revocationCommit : Event := .resume 2 (oracle 1500 5) .none

/-- The revocation is accepted; its body arrives once more, to revoke the
first device. -/
def replayedRun : List Event :=
  revocationRun ++ [revocationCommit, .request (revokeRequest 3 1 revocationBody) (oracle 1500 6)]

def replayCommit : Event := .resume 3 (oracle 1500 7) .none

/-- Task `i` is about to execute a revocation of the `k`-th device. -/
def revokes (w : World) (i k : Nat) : Bool :=
  (startedCall w i).any fun c => decide (c.route = .revoke) && decide (c.chain = chainId) &&
    decide (c.param = uid k)

theorem revokes_some {w : World} {i k : Nat} (h : revokes w i k = true) :
    ∃ call v, w.tasks[i]? = some (.start call (.ok v)) ∧ call.route = .revoke ∧
      call.chain = chainId ∧ call.param = uid k := by
  obtain ⟨c, hc, h⟩ := (Option.any_eq_true _ _).mp h
  obtain ⟨call, v, htask, rfl⟩ := startedCall_some hc
  simp only [Bool.and_eq_true, decide_eq_true_eq] at h
  exact ⟨call, v, htask, h.1.1, h.1.2, h.2⟩

theorem replayedRun_facts :
    (revokes (World.after crypto cfg revocationRun) 2 2 &&
      (answered ((World.after crypto cfg revocationRun).step crypto revocationCommit) 2).isSome &&
      decide ((storeAfter crypto cfg (revocationRun ++ [revocationCommit]) chainId).status (uid 2) =
        some .revoked) &&
      revokes (World.after crypto cfg replayedRun) 3 1 &&
      (answered ((World.after crypto cfg replayedRun).step crypto replayCommit) 3).isSome &&
      decide ((storeAfter crypto cfg (replayedRun ++ [replayCommit]) chainId).status (uid 1) =
        some .active)) = true := by
  decide +kernel

end Sample

/-- The second device is revoked by its first request. -/
theorem revoke_revokes_second :
    (storeAfter Sample.crypto Sample.cfg (Sample.revocationRun ++ [Sample.revocationCommit])
        Sample.chainId).status (Sample.uid 2) = some .revoked ∧
      ((storeAfter Sample.crypto Sample.cfg Sample.revocationRun Sample.chainId).status
          (Sample.uid 2) = some .revoked ∨
        ∃ h, (storeAfter Sample.crypto Sample.cfg Sample.revocationRun
          Sample.chainId).outcomes.find? (.epoch, h) = none) := by
  have hfacts := Sample.replayedRun_facts
  simp only [Bool.and_eq_true, decide_eq_true_eq] at hfacts
  obtain ⟨⟨⟨⟨⟨hrevokes, hanswer⟩, hstatus⟩, -⟩, -⟩, -⟩ := hfacts
  obtain ⟨call, v, htask, hroute, hchain, hparam⟩ := Sample.revokes_some hrevokes
  obtain ⟨r, hr⟩ := Option.isSome_iff_exists.mp hanswer
  have hiff := (revoke_revokes Sample.crypto Sample.cfg Sample.revocationRun htask hroute
    (Sample.answers_iff.mpr hr)).1
  rw [hchain, hparam] at hiff
  exact ⟨hstatus, (hiff.mp hstatus).symm.imp_right fun h => ⟨_, h⟩⟩

/-- A body that was executed to revoke the second device is sent to revoke the
first one: it is answered from the record, and the first device is active. -/
theorem replayed_revocation_spares : ∃ es i o call v r,
    (World.after Sample.crypto Sample.cfg es).tasks[i]? = some (.start call (.ok v)) ∧
    call.route = .revoke ∧
    (World.after Sample.crypto Sample.cfg es).Answers Sample.crypto i o .none r ∧
    (storeAfter Sample.crypto Sample.cfg (es ++ [.resume i o .none]) call.chain).status
      call.param = some .active := by
  have hfacts := Sample.replayedRun_facts
  simp only [Bool.and_eq_true, decide_eq_true_eq] at hfacts
  obtain ⟨⟨⟨-, hrevokes⟩, hanswer⟩, hstatus⟩ := hfacts
  obtain ⟨call, v, htask, hroute, hchain, hparam⟩ := Sample.revokes_some hrevokes
  obtain ⟨r, hr⟩ := Option.isSome_iff_exists.mp hanswer
  refine ⟨Sample.replayedRun, 3, Sample.oracle 1500 7, call, v, r, htask, hroute,
    Sample.answers_iff.mpr hr, ?_⟩
  rw [hchain, hparam]
  exact hstatus

end PallaSync
