import PallaSync.Import

/-!
# What the checks establish

One lemma a check: what is known of the tables and of the chain row once it
has passed. The later proofs use these and never unfold a check.
-/

namespace PallaSync

open Check

variable {X : Crypto} {st : Store} {c : Chain} {v : Json}

theorem bound_ok (h : bound v c = .ok ()) :
    s v "chain_id" = c.chainId ∧ n v "generation" = c.generation := by
  simp only [bound, bind_ok, failIf_ok, bne_eq_false_iff_eq] at h
  obtain ⟨_, hc, hg⟩ := h
  exact ⟨hc, hg⟩

theorem fields_checked {required optional : FieldTable} {f : String × FieldType}
    (h : fields X v required optional = .ok ()) (hf : f ∈ required) :
    checkType X f.2 (v.get f.1) = true := by
  unfold fields at h
  split at h
  · rename_i members
    simp only [bind_ok, failIf_ok, Bool.not_eq_false', List.all_eq_true] at h
    obtain ⟨_, hreq, -⟩ := h
    obtain ⟨x, hx, hcheck⟩ := (Option.any_eq_true _ _).mp (hreq f hf)
    rw [Json.get, hx, Option.getD_some]
    exact hcheck
  · cases h

/-! ## Devices -/

structure DeviceOk (X : Crypto) (st : Store) (c : Chain) (d : Json) : Prop where
  valid : validate X d .device = .ok ()
  chainId : s d "chain_id" = c.chainId
  generation : n d "generation" = c.generation
  unused : ∀ digest, st.objectDigest .device (s d "device_id") = some digest →
    digest = X.objectHash d

theorem device_ok {d : Json} {request : Option Json} {genesis : Bool}
    (h : device X st c d request genesis = .ok ()) : DeviceOk X st c d := by
  simp only [device, bind_ok, failIf_ok] at h
  obtain ⟨_, hv, _, hb, _, -, _, -, _, -, _, -, _, -, _, -, _, hd, -⟩ := h
  obtain ⟨hc, hg⟩ := bound_ok hb
  refine ⟨hv, hc, hg, fun digest he => ?_⟩
  simpa [he] using hd

/-! ## Envelopes and epochs -/

structure EnvelopeOk (X : Crypto) (st : Store) (c : Chain) (e epoch : Json)
    (staged : List Json) : Prop where
  valid : validate X e .envelope = .ok ()
  agrees : ∀ k ∈ epochKeys, e.get k = epoch.get k
  delivered : s e "recipient_kind" = "device" →
    ∃ d, recipient st c staged (s e "recipient_device_id") = .ok d ∧
      e.get "recipient_key_hash" = .str (kexHash X d)

theorem envelope_ok {e epoch : Json} {staged : List Json}
    (h : envelope X st c e epoch staged = .ok ()) : EnvelopeOk X st c e epoch staged := by
  simp only [envelope, bind_ok, failIf_ok] at h
  obtain ⟨_, hv, _, hk, _, -, _, -, hd⟩ := h
  refine ⟨hv, by simpa using hk, fun hkind => ?_⟩
  rw [if_pos hkind] at hd
  obtain ⟨d, hd, he⟩ := bind_ok.mp hd
  exact ⟨d, hd, by simpa using he⟩

/-- The recipient of an envelope is staged with it, or registered, not revoked
and of the current generation. -/
theorem recipient_ok {staged : List Json} {id : String} {d : Json}
    (h : recipient st c staged id = .ok d) :
    stagedDevice staged id = some d ∨
    stagedDevice staged id = none ∧ st.object .device id = some d ∧
      n d "generation" = c.generation ∧
      ∃ status, st.status id = some status ∧ status ≠ .revoked := by
  unfold recipient at h
  split at h
  · rename_i d' hd'
    exact .inl (Except.ok.inj h ▸ hd')
  · rename_i hnone
    simp only [bind_ok, require_ok, failIf_ok, pure_ok, Bool.or_eq_false_iff,
      bne_eq_false_iff_eq, beq_eq_false_iff_ne] at h
    obtain ⟨d', hd', status, hs, _, ⟨hr, hg⟩, rfl⟩ := h
    exact .inr ⟨hnone, hd', hg, status, hs, hr⟩

/-- What a valid epoch establishes about its two lists. -/
theorem validateEpoch_ok {e : Json} (h : validateEpoch X e = .ok ()) :
    a e "members" ≠ [] ∧
      ∀ id ∈ strings e "members", id ∉ strings e "revoked_device_ids" := by
  simp only [validateEpoch, bind_ok, failIf_ok, Bool.or_eq_false_iff, List.isEmpty_eq_false_iff,
    List.any_eq_false, List.contains_iff_mem] at h
  obtain ⟨_, -, _, -, _, ⟨⟨hne, -⟩, -⟩, _, -, hd⟩ := h
  exact ⟨hne, hd⟩

/-- The place of an epoch in the line. -/
structure SuccessionOk (X : Crypto) (c : Chain) (epoch : Json) (genesis : Bool) : Prop where
  first : genesis = true → n epoch "epoch" = 0 ∧ a epoch "revoked_device_ids" = []
  next : genesis = false → n epoch "epoch" = n c.epoch "epoch" + 1 ∧
    s epoch "previous_epoch_hash" = c.epochHash X

theorem epochSuccession_ok {epoch : Json} {genesis reseed : Bool}
    (h : epochSuccession X c epoch genesis reseed = .ok ()) : SuccessionOk X c epoch genesis := by
  cases genesis with
  | true =>
      simp only [epochSuccession, if_true, failIf_ok, Bool.or_eq_false_iff,
        bne_eq_false_iff_eq, Bool.not_eq_false', List.isEmpty_iff] at h
      exact ⟨fun _ => ⟨h.1.1.1, h.2⟩, fun he => absurd he (by decide)⟩
  | false =>
      simp only [epochSuccession, Bool.false_eq_true, if_false, bind_ok, failIf_ok,
        Bool.or_eq_false_iff, bne_eq_false_iff_eq] at h
      obtain ⟨_, hn, -⟩ := h
      exact ⟨fun he => absurd he (by decide), fun _ => hn⟩

/-- What a bundle establishes: its epoch, whom it revokes, whom it keeps, and
that its envelopes pass one by one. -/
structure BundleOk (X : Crypto) (st : Store) (c : Chain) (epoch : Json)
    (envelopes staged : List Json) (genesis reseed : Bool) : Prop where
  valid : validate X epoch .epoch = .ok ()
  chainId : s epoch "chain_id" = c.chainId
  generation : n epoch "generation" = c.generation
  succession : SuccessionOk X c epoch genesis
  revokes : ∀ id ∈ strings epoch "revoked_device_ids", id ∈ existingDevices st c genesis reseed
  revokesAll : reseed = true →
    strings epoch "revoked_device_ids" = existingDevices st c genesis reseed
  members : ∃ members,
    addStaged (if reseed then [] else (existingDevices st c genesis reseed).filter fun id =>
      !(strings epoch "revoked_device_ids").contains id) staged = .ok members ∧
    sortIds members = strings epoch "members" ∧
    envelopes.length = members.length + 1 ∧
    bundleEnvelopes X st c epoch staged members envelopes [] [] false = .ok true

theorem bundle_ok {epoch : Json} {envelopes staged : List Json} {genesis reseed : Bool}
    (h : bundle X st c epoch envelopes staged genesis reseed = .ok ()) :
    BundleOk X st c epoch envelopes staged genesis reseed := by
  simp only [bundle, bind_ok, failIf_ok, Bool.or_eq_false_iff, List.any_eq_false,
    Bool.not_eq_true', bne_eq_false_iff_eq, Bool.not_eq_false'] at h
  obtain ⟨_, hv, _, hb, _, hsucc, _, -, _, -, key, -, _, -, _, ⟨hrev, hall⟩, members, hadd, _,
    ⟨hsort, -⟩, _, hlen, recovery, henv, rfl⟩ := h
  obtain ⟨hc, hg⟩ := bound_ok hb
  refine ⟨hv, hc, hg, epochSuccession_ok hsucc, fun id hid => ?_, fun hr => ?_,
    members, hadd, hsort, hlen, henv⟩
  · simpa using hrev id hid
  · rw [hr] at hall
    simpa [hr] using hall

/-! ## Snapshots -/

structure CompactionOk (X : Crypto) (st : Store) (c : Chain) (v : Json)
    (staged : List Json) : Prop where
  valid : validate X v .compaction = .ok ()
  chainId : s v "chain_id" = c.chainId
  generation : n v "generation" = c.generation
  logId : s v "log_id" = c.logId
  epochHash : s v "epoch_hash" = c.epochHash X
  covered_le : n v "covered_through_seq" ≤ c.headSeq
  coveredHash : coveredHash X st c (n v "covered_through_seq") = .ok (s v "covered_log_hash")
  parts : ∀ p ∈ a v "snapshot_parts", compactionPart X st c staged p = .ok ()

theorem compaction_ok {staged : List Json} (h : compaction X st c v staged = .ok ()) :
    CompactionOk X st c v staged := by
  simp only [compaction, bind_ok, failIf_ok, each_ok, Bool.or_eq_false_iff, bne_eq_false_iff_eq,
    decide_eq_false_iff_not, not_lt] at h
  obtain ⟨_, hv, _, hb, _, hl, _, he, _, -, _, -, hash, hh, _, ⟨hle, hc⟩, hp⟩ := h
  obtain ⟨hcid, hg⟩ := bound_ok hb
  exact ⟨hv, hcid, hg, hl, he, hle, hc ▸ hh, hp⟩

structure PruneOk (X : Crypto) (st : Store) (c : Chain) (v comp : Json) : Prop where
  stored : st.object .compaction (s v "compaction_id") = some comp
  min_le : c.minAvailableSeq ≤ n v "through_seq" + 1
  through_le : n v "through_seq" ≤ n comp "covered_through_seq"
  compaction : CompactionOk X st c comp []

theorem pruneCheck_ok {comp : Json} (h : pruneCheck X st c v = .ok comp) :
    PruneOk X st c v comp := by
  simp only [pruneCheck, bind_ok, require_ok, failIf_ok, orElse_ok, pure_ok,
    Bool.or_eq_false_iff, decide_eq_false_iff_not, not_lt] at h
  obtain ⟨_, -, comp', hcomp, _, ⟨hmin, hle⟩, _, hok, rfl⟩ := h
  exact ⟨hcomp, by omega, hle, compaction_ok hok⟩

/-! ## Whole requests -/

theorem stagedDeviceCheck_ok {d : Json} (h : stagedDeviceCheck X st c d = .ok ()) :
    DeviceOk X st c d := by
  simp only [stagedDeviceCheck, bind_ok] at h
  obtain ⟨_, hd, -⟩ := h
  exact device_ok hd

theorem genesisCheck_ok (h : genesisCheck X st c v = .ok ()) :
    DeviceOk X st c (v.get "device_record") ∧
      BundleOk X st c (v.get "epoch") (a v "envelopes") [v.get "device_record"] true false := by
  simp only [genesisCheck, bind_ok] at h
  obtain ⟨_, hd, _, -, hb⟩ := h
  exact ⟨device_ok hd, bundle_ok hb⟩

structure EpochOk (R : Relay) (st : Store) (c : Chain) (v : Json) : Prop where
  cas : s v "expected_epoch_hash" = c.epochHash R.crypto
  devices : ∀ d ∈ a v "device_records", DeviceOk R.crypto st c d
  bundle : BundleOk R.crypto st c (v.get "epoch") (a v "envelopes") (a v "device_records")
    false false
  limit : (a (v.get "epoch") "members").length ≤ R.cfg.limits.maxDevices

theorem epochCheck_ok {R : Relay} {auth : Auth} {device : Option String}
    (h : epochCheck R st c auth v device = .ok ()) : EpochOk R st c v := by
  simp only [epochCheck, bind_ok, failIf_ok, each_ok, bne_eq_false_iff_eq,
    decide_eq_false_iff_not, not_lt] at h
  obtain ⟨_, hcas, _, -, _, hd, _, -, _, -, _, -, _, hb, hl⟩ := h
  exact ⟨hcas, fun d hm => stagedDeviceCheck_ok (hd d hm), bundle_ok hb, hl⟩

structure EnrollOk (R : Relay) (st : Store) (c : Chain) (v : Json) : Prop where
  device : DeviceOk R.crypto st c (v.get "device_record")
  unused : st.objectDigest .device (s (v.get "device_record") "device_id") = none
  limit : (st.registry.count fun r => r.generation == c.generation && r.status != .revoked) <
    R.cfg.limits.maxDevices
  envelopes : enrollmentEnvelopes R.crypto st c (v.get "device_record") (a v "envelopes") []
    false = .ok true

theorem enrollCheck_ok {R : Relay} {auth : Auth} {request : Option Json}
    (h : enrollCheck R st c auth v request = .ok ()) : EnrollOk R st c v := by
  simp only [enrollCheck, bind_ok, failIf_ok, decide_eq_false_iff_not, not_le,
    Bool.not_eq_false'] at h
  obtain ⟨_, hd, _, hu, _, -, _, -, _, hl, _, -, _, -, current, he, rfl⟩ := h
  exact ⟨device_ok hd, by simpa using hu, hl, he⟩

structure ReseedOk (R : Relay) (st : Store) (old : Chain) (v : Json) (imported : Import) :
    Prop where
  chainId : s (v.get "parameters") "chain_id" = old.chainId
  adminPublicKey : s (v.get "parameters") "admin_public_key" = old.adminPublicKey
  generation : n (v.get "parameters") "generation" = old.generation + 1
  previous : s (v.get "parameters") "previous_parameters_hash" = old.parametersHash R.crypto
  devices : a v "device_records" ≠ []
  limit : (a v "device_records").length ≤ R.cfg.limits.maxDevices
  staged : st.imports = some imported
  parameters : imported.parameters = old.parameters
  epoch : imported.epoch = old.epoch

theorem reseedCheck_ok {R : Relay} {imported : Import}
    (h : reseedCheck R st c v = .ok imported) : ReseedOk R st c v imported := by
  simp only [reseedCheck, bind_ok, failIf_ok, require_ok, pure_ok, Bool.or_eq_false_iff,
    bne_eq_false_iff_eq, decide_eq_false_iff_not, not_lt, List.isEmpty_eq_false_iff] at h
  obtain ⟨_, -, _, ⟨⟨⟨hc, ha⟩, hg⟩, hp⟩, _, -, _, ⟨hd, hl⟩, i, hi, _, ⟨hip, hie⟩, rfl⟩ := h
  exact ⟨hc, ha, hg, hp, hd, hl, hi, hip, hie⟩

theorem reseedEpochCheck_ok (h : reseedEpochCheck X st c v = .ok ()) :
    BundleOk X st c (v.get "epoch") (a v "envelopes") (a v "device_records") false true := by
  simp only [reseedEpochCheck, bind_ok] at h
  obtain ⟨_, -, hb⟩ := h
  exact bundle_ok hb

end PallaSync
