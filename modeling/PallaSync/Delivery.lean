import PallaSync.Provenance
import PallaSync.Revocations

/-!
# What an epoch commit delivers

The key of an epoch reaches a device in an envelope of that epoch addressed to
it. A bundle passes only with one envelope a member and the recovery envelope
(`bundleEnvelopes_covers`), an enrollment only with one of the current epoch
(`enrollmentEnvelopes_current`). Committing the bundle then leaves the registry
with the members of the epoch and no one else (`Committed.seats`), and each of
them served (`Committed.serves`).
-/

namespace PallaSync

open Check

/-! ## Envelopes of a request -/

section Envelopes

variable {X : Crypto} {st : Store} {c : Chain} {epoch d e : Json} {staged es : List Json}
  {members ids recipients : List String}

theorem envelope_kind (h : validate X e .envelope = .ok ()) :
    s e "recipient_kind" = "device" ∨ s e "recipient_kind" = "recovery" := by
  have h : validateEnvelope X e = .ok () := h
  simp only [validateEnvelope, signed, bind_ok] at h
  obtain ⟨_, ⟨_, -, _, hfields, -⟩, -⟩ := h
  have hkind := fields_checked (f := ("recipient_kind", .oneOf ["device", "recovery"])) hfields
    (by simp)
  simp only [checkType, Option.any_eq_true, List.contains_iff_mem, List.mem_cons,
    List.not_mem_nil, or_false] at hkind
  obtain ⟨kind, hk, h⟩ := hkind
  rwa [s, hk, Option.getD_some]

/-- The envelopes of a bundle reach pairwise distinct members, and all but the
recovery one reach one each. -/
theorem bundleEnvelopes_recipients {recovery : Bool}
    (h : bundleEnvelopes X st c epoch staged members es ids recipients recovery = .ok true)
    (hnodup : recipients.Nodup) (hsub : recipients ⊆ members) :
    (∀ e ∈ es, envelope X st c e epoch staged = .ok ()) ∧
      (recovery = false → ∃ e ∈ es, s e "recipient_kind" = "recovery" ∧
        X.objectHash e = s epoch "recovery_envelope_hash") ∧
      ∃ reached : List String, reached.Nodup ∧ reached ⊆ members ∧
        reached.length + (if recovery then 0 else 1) = recipients.length + es.length ∧
        ∀ id ∈ reached, id ∈ recipients ∨ ∃ e ∈ es, s e "recipient_kind" ≠ "recovery" ∧
          s e "recipient_device_id" = id := by
  induction es generalizing ids recipients recovery with
  | nil =>
      obtain rfl : recovery = true := Except.ok.inj h
      exact ⟨by simp, by simp, recipients, hnodup, hsub, by simp, fun id hid => .inl hid⟩
  | cons e es ih =>
      simp only [bundleEnvelopes, bind_ok] at h
      obtain ⟨_, henv, _, -, h⟩ := h
      rcases ite_ok.mp h with ⟨hkind, h⟩ | ⟨hkind, h⟩
      · simp only [bind_ok, failIf_ok, Bool.or_eq_false_iff, bne_eq_false_iff_eq] at h
        obtain ⟨_, ⟨hfirst, hhash⟩, hrest⟩ := h
        obtain ⟨hall, -, reached, hn, hs, hlen, hreach⟩ := ih hrest hnodup hsub
        refine ⟨List.forall_mem_cons.mpr ⟨henv, hall⟩,
          fun _ => ⟨e, List.mem_cons_self, hkind, hhash⟩, reached, hn, hs, ?_, fun id hid => ?_⟩
        · simp only [if_true, hfirst, Bool.false_eq_true, if_false, List.length_cons] at hlen ⊢
          omega
        · rcases hreach id hid with hold | ⟨x, hx, h⟩
          · exact .inl hold
          · exact .inr ⟨x, List.mem_cons_of_mem _ hx, h⟩
      · simp only [bind_ok, failIf_ok, Bool.or_eq_false_iff, Bool.not_eq_false',
          List.contains_iff_mem] at h
        obtain ⟨_, ⟨hmem, hnew⟩, h⟩ := h
        have hnew : s e "recipient_device_id" ∉ recipients := by simpa using hnew
        obtain ⟨hall, hrec, reached, hn, hs, hlen, hreach⟩ :=
          ih h (List.nodup_cons.mpr ⟨hnew, hnodup⟩) (List.cons_subset.mpr ⟨hmem, hsub⟩)
        refine ⟨List.forall_mem_cons.mpr ⟨henv, hall⟩, fun hr => ?_, reached, hn, hs, ?_,
          fun id hid => ?_⟩
        · obtain ⟨x, hx, h⟩ := hrec hr
          exact ⟨x, List.mem_cons_of_mem _ hx, h⟩
        · rw [hlen, List.length_cons, List.length_cons]
          omega
        · obtain hold | ⟨x, hx, h⟩ := hreach id hid
          · obtain rfl | hold := List.mem_cons.mp hold
            · exact .inr ⟨e, List.mem_cons_self, hkind, rfl⟩
            · exact .inl hold
          · exact .inr ⟨x, List.mem_cons_of_mem _ hx, h⟩

/-- With one envelope more than there are members, no member is left out. -/
theorem bundleEnvelopes_covers
    (h : bundleEnvelopes X st c epoch staged members es [] [] false = .ok true)
    (hlen : es.length = members.length + 1) {id : String} (hid : id ∈ members) :
    ∃ e ∈ es, s e "recipient_kind" = "device" ∧ s e "recipient_device_id" = id ∧
      EnvelopeOk X st c e epoch staged := by
  obtain ⟨hall, -, reached, hn, hs, hcount, hreach⟩ :=
    bundleEnvelopes_recipients h List.nodup_nil (List.nil_subset _)
  simp only [Bool.false_eq_true, if_false, List.length_nil, hlen] at hcount
  have hperm : reached.Perm members :=
    (List.subperm_of_subset hn hs).perm_of_length_le (by omega)
  obtain hnone | ⟨e, he, hkind, hto⟩ := hreach id (hperm.symm.subset hid)
  · cases hnone
  · have hok := envelope_ok (hall e he)
    exact ⟨e, he, (envelope_kind hok.valid).resolve_right hkind, hto, hok⟩

theorem bundleEnvelopes_recovery
    (h : bundleEnvelopes X st c epoch staged members es [] [] false = .ok true) :
    ∃ e ∈ es, s e "recipient_kind" = "recovery" ∧
      X.objectHash e = s epoch "recovery_envelope_hash" ∧ EnvelopeOk X st c e epoch staged := by
  obtain ⟨hall, hrec, -⟩ := bundleEnvelopes_recipients h List.nodup_nil (List.nil_subset _)
  obtain ⟨e, he, hkind, hhash⟩ := hrec rfl
  exact ⟨e, he, hkind, hhash, envelope_ok (hall e he)⟩

/-- An enrollment has an envelope of the current epoch to its device. -/
theorem enrollmentEnvelopes_current {current : Bool}
    (h : enrollmentEnvelopes X st c d es ids current = .ok true) :
    current = true ∨ ∃ e ∈ es, s e "recipient_kind" = "device" ∧
      s e "recipient_device_id" = s d "device_id" ∧ n e "epoch" = n c.epoch "epoch" ∧
      e.get "recipient_key_hash" = .str (kexHash X d) := by
  induction es generalizing ids current with
  | nil => exact .inl (Except.ok.inj h)
  | cons e es ih =>
      simp only [enrollmentEnvelopes, enrollmentEnvelope, bind_ok, failIf_ok, require_ok,
        Bool.or_eq_false_iff, bne_eq_false_iff_eq] at h
      obtain ⟨_, ⟨⟨hkind, hto⟩, -⟩, _, ⟨epoch, -, _, henv, -⟩, h⟩ := h
      obtain hcur | ⟨x, hx, h⟩ := ih h
      · rw [Bool.or_eq_true, beq_iff_eq] at hcur
        refine hcur.imp_right fun hnow => ⟨e, List.mem_cons_self, hkind, hto, hnow, ?_⟩
        obtain ⟨d', hd', hkey⟩ := (envelope_ok henv).delivered hkind
        obtain rfl : d = d' := by
          rw [recipient, stagedDevice, hto, List.find?_cons_of_pos (by simp)] at hd'
          exact Except.ok.inj hd'
        exact hkey
      · exact .inr ⟨x, List.mem_cons_of_mem _ hx, h⟩

end Envelopes

/-! ## Seats -/

/-- The seat of a registered device that is not revoked. -/
def Ledger.Seat (L : Ledger) (id : String) (r : RegistryRow) : Prop :=
  L.registry.find? id = some r ∧ r.status ≠ .revoked

/-- The registry after the devices `ds` joined it. -/
structure Joined (status : Status) (ds : List Json) (L L' : Ledger) : Prop where
  old : ∀ id r, L.registry.find? id = some r → L'.registry.find? id = some r
  joins : ∀ d ∈ ds, ∃ r, L'.registry.find? (s d "device_id") = some r ∧
    r.status = status ∧ r.generation = n d "generation"
  only : ∀ id r, L'.registry.find? id = some r →
    L.registry.find? id = some r ∨ ∃ d ∈ ds, s d "device_id" = id

section Seats

variable {X : Crypto} {L M M' L' : Ledger} {id : String} {row : RegistryRow}

theorem Steps.joined {status : Status} {ds : List Json}
    (h : Steps X (ds.map (.enlist status)) L L') : Joined status ds L L' := by
  induction ds generalizing L with
  | nil =>
      obtain _ | _ := h
      exact ⟨fun _ _ h => h, by simp, fun _ _ h => .inl h⟩
  | cons d ds ih =>
      obtain _ | ⟨hm, hs⟩ := h
      cases hm with
      | enlist hl hr =>
          have hj := ih hs
          refine ⟨fun id r hrow => hj.old id r ?_, List.forall_mem_cons.mpr ⟨?_, hj.joins⟩,
            fun id r hrow => ?_⟩
          · rw [hr.find?, if_neg, hl.registry]
            · exact hrow
            · rintro rfl
              rw [← hl.registry, hr.free] at hrow
              cases hrow
          · have hfind := hr.find? (s d "device_id")
            rw [if_pos rfl] at hfind
            exact ⟨_, hj.old _ _ hfind, rfl, rfl⟩
          · obtain hold | ⟨x, hx, hid⟩ := hj.only id r hrow
            · rw [hr.find?] at hold
              split at hold
              · rename_i hid
                exact .inr ⟨d, List.mem_cons_self, hid.symm⟩
              · exact .inl (hl.registry ▸ hold)
            · exact .inr ⟨x, List.mem_cons_of_mem _ hx, hid⟩

theorem Steps.logs_registry {k : Kind} (vs : List Json) (h : Steps X (vs.map (.log k)) L L') :
    L'.registry = L.registry := by
  refine h.preserves (P := fun N => N.registry = L.registry) (C := fun m => ∃ v, m = .log k v)
    (fun m N N' ⟨v, hv⟩ hs hN => ?_) (fun m hm => ?_) rfl
  · subst hv
    cases hs with
    | log _ hl => exact hl.registry.trans hN
  · obtain ⟨v, -, rfl⟩ := List.mem_map.mp hm
    exact ⟨v, rfl⟩

/-- A revocation empties the seats it names and leaves the others. -/
theorem Steps.revoked_seats {seq : Nat} {ids : List String}
    (h : Steps X (ids.map (.revoke seq)) L L') :
    L'.Seat id row ↔ L.Seat id row ∧ id ∉ ids := by
  induction ids generalizing L with
  | nil =>
      obtain _ | _ := h
      simp
  | cons x ids ih =>
      obtain _ | ⟨hm, hs⟩ := h
      cases hm with
      | revoke hw =>
          rw [ih hs, List.mem_cons, not_or, ← and_assoc]
          refine and_congr_left fun _ => ?_
          rw [Ledger.Seat, Ledger.Seat, hw.find?]
          cases hrow : L.registry.find? id with
          | none => simp
          | some r =>
              have hkey : r.deviceId = id := Table.key_of_find? hrow
              by_cases hx : id = x
              · simp only [Option.map_some, RegistryRow.revokeAt, hkey, hx, if_true,
                  Option.some.injEq, not_true, and_false, iff_false, not_and, not_not]
                rintro rfl
                rfl
              · simp [RegistryRow.revokeAt, hkey, hx]

variable {commit : EpochCommit} {entry : Option LogEntry} {r : Receipt}

/-- The status in which the devices of a commit join. -/
def EpochCommit.status (commit : EpochCommit) : Status :=
  if commit.genesis then .active else .pendingKeys

theorem EpochCommit.status_ne (commit : EpochCommit) : commit.status ≠ .revoked := by
  unfold status
  split <;> simp

/-- The devices of a commit join, and whom its epoch revokes goes. -/
theorem Committed.seats (h : Committed X commit L M M' L' entry r) :
    ∃ N : Ledger, Joined commit.status commit.staged L N ∧
      ∀ id row, L'.Seat id row ↔
        N.Seat id row ∧ id ∉ strings commit.epoch "revoked_device_ids" := by
  obtain ⟨N', hbefore, hadmin⟩ := Steps.of_append h.before
  obtain ⟨N, hjoin, henv⟩ := Steps.of_append hbefore
  obtain ⟨K, hrev, hset⟩ := Steps.of_append h.after
  have hreg : M'.registry = N.registry :=
    h.logged.registry.trans ((hadmin.logs_registry _).trans (henv.logs_registry _))
  have hlast : L'.registry = K.registry := by
    obtain _ | ⟨hm, hnil⟩ := hset
    obtain _ | _ := hnil
    obtain _ | _ := hm
    rfl
  have hj := hjoin.joined
  refine ⟨N, ⟨hj.old, fun d hd => hj.joins d ((List.mem_insertionSort _).mpr hd),
    fun id row hrow => (hj.only id row hrow).imp_right fun ⟨d, hd, hid⟩ =>
      ⟨d, (List.mem_insertionSort _).mp hd, hid⟩⟩, fun id row => ?_⟩
  rw [Ledger.Seat, hlast]
  refine hrev.revoked_seats.trans ?_
  rw [Ledger.Seat, hreg]
  rfl

end Seats

/-! ## Service -/

/-- The device has an envelope of the current epoch on file, made out to the
key of its record `d`. -/
structure Delivers (X : Crypto) (L : Ledger) (id : String) (e d : Json) : Prop where
  deviceId : s d "device_id" = id
  device : L.Filed X .device d
  envelope : L.Filed X .envelope e
  kind : s e "recipient_kind" = "device"
  recipient : s e "recipient_device_id" = id
  epoch : n e "epoch" = n L.chain.epoch "epoch"
  key : e.get "recipient_key_hash" = .str (kexHash X d)

/-- The recovery envelope of the current epoch is on file. -/
structure Recovers (X : Crypto) (L : Ledger) (e : Json) : Prop where
  envelope : L.Filed X .envelope e
  kind : s e "recipient_kind" = "recovery"
  epoch : n e "epoch" = n L.chain.epoch "epoch"
  hash : X.objectHash e = s L.chain.epoch "recovery_envelope_hash"

section Service

variable {X : Crypto} {L M M' L' : Ledger} {k : Kind} {v d e : Json} {id : String}

theorem Delivers.mono (h : Delivers X L id e d) (hg : Grows L L')
    (hepoch : L'.chain.epoch = L.chain.epoch) : Delivers X L' id e d :=
  ⟨h.deviceId, h.device.mono hg, h.envelope.mono hg, h.kind, h.recipient, by rw [hepoch, h.epoch],
    h.key⟩

theorem Recovers.mono (h : Recovers X L e) (hg : Grows L L')
    (hepoch : L'.chain.epoch = L.chain.epoch) : Recovers X L' e :=
  ⟨h.envelope.mono hg, h.kind, by rw [hepoch, h.epoch], by rw [hepoch, h.hash]⟩

/-- What a move brings is on file after it. -/
theorem Step.files {m : Move} (h : Step X m L L') (hm : m.brings = some (k, v))
    (hk : k ≠ .snapshotPart) : L'.Filed X k v := by
  cases h with
  | log _ hl =>
      cases hm
      exact hl.filed
  | enlist hl hr =>
      cases hm
      rw [hr.rest]
      exact hl.filed
  | stage _ hs =>
      cases hm
      refine ⟨_, (hs.objects _).trans (if_pos rfl), ?_⟩
      cases ho : L.objects.find? (k, objectId v k) with
      | none => rfl
      | some o => exact hs.same o ho
  | partAgain | part _ =>
      cases hm
      exact absurd rfl hk
  | evidence _ | revoke _ | activate _ | setEpoch | prune _ _ _ _ _ | handoff _ _
  | expire _ _ _ _ | found _ _ | reincarnate _ _ => cases hm

theorem Steps.files {ms : List Move} {m : Move} (h : Steps X ms L L') (hmem : m ∈ ms)
    (hm : m.brings = some (k, v)) (hk : k ≠ .snapshotPart) : L'.Filed X k v := by
  obtain ⟨ms₁, ms₂, rfl⟩ := List.append_of_mem hmem
  obtain ⟨N, N', -, hstep, hrest⟩ := h.around
  exact (hstep.files hm hk).mono hrest.grows

variable {commit : EpochCommit} {entry : Option LogEntry} {r : Receipt}

theorem Committed.files {m : Move} (h : Committed X commit L M M' L' entry r)
    (hmem : m ∈ commit.before) (hm : m.brings = some (k, v)) (hk : k ≠ .snapshotPart) :
    L'.Filed X k v :=
  ((h.before.files hmem hm hk).mono h.logged.grows).mono h.after.grows

theorem EpochCommit.mem_before_staged (hd : d ∈ commit.staged) :
    ∃ m ∈ commit.before, m.brings = some (.device, d) :=
  ⟨_, List.mem_append_left _ (List.mem_append_left _
    (List.mem_map_of_mem ((List.mem_insertionSort _).mpr hd))), rfl⟩

theorem EpochCommit.mem_before_envelope (he : e ∈ commit.envelopes) :
    ∃ m ∈ commit.before, m.brings = some (.envelope, e) :=
  ⟨_, List.mem_append_left _ (List.mem_append_right _
    (List.mem_map_of_mem ((List.mem_insertionSort _).mpr he))), rfl⟩

theorem Committed.epoch (h : Committed X commit L M M' L' entry r) :
    L'.chain.epoch = commit.epoch := by
  obtain ⟨N, -, rfl⟩ := h.split
  rfl

theorem addStaged_ok {kept members : List String} {staged : List Json}
    (h : addStaged kept staged = .ok members) :
    members = kept ++ staged.map (s · "device_id") := by
  induction staged generalizing kept with
  | nil => exact (Except.ok.inj h).symm.trans (by simp)
  | cons d staged ih =>
      obtain ⟨_, -, h⟩ := bind_ok.mp h
      rw [ih h, List.map_cons, List.append_assoc]
      rfl

theorem stagedDevice_some {staged : List Json} (h : stagedDevice staged id = some d) :
    d ∈ staged ∧ s d "device_id" = id :=
  ⟨List.mem_of_find?_eq_some h, by simpa using List.find?_some h⟩

/-- A device whose record is stored is on file with it. -/
theorem Sound.filed (hs : Sound X L) {o : ObjectRow} (ho : L.objects.find? (.device, id) = some o)
    (hb : o.body = some d) : s d "device_id" = id ∧ L.Filed X .device d := by
  obtain ⟨d', hd', hid⟩ := hs.device_body ho
  obtain rfl := Option.some.inj (hd'.symm.trans hb)
  refine ⟨hid, o, ?_, ?_⟩
  · rw [show objectId d' .device = id from hid]
    exact ho
  · exact ((hs.object_of_find? ho).body _ hb).1.symm

/-- A device that an envelope of the bundle is made out to is served once the
bundle is committed. -/
theorem Committed.serves {st : Store} {c : Chain}
    (h : Committed X commit L M M' L' entry r) (hs : Sound X (st.ledger c))
    (hg : Grows (st.ledger c) L) (he : e ∈ commit.envelopes)
    (hkind : s e "recipient_kind" = "device") (hto : s e "recipient_device_id" = id)
    (hok : EnvelopeOk X st c e commit.epoch commit.staged) : ∃ d, Delivers X L' id e d := by
  obtain ⟨d, hd, hkey⟩ := hok.delivered hkind
  rw [hto] at hd
  obtain ⟨m, hm, hbrings⟩ := EpochCommit.mem_before_envelope he
  have hnumber : n e "epoch" = n commit.epoch "epoch" := by
    rw [n, n, hok.agrees "epoch" (by simp [epochKeys])]
  have hfiled : s d "device_id" = id ∧ L'.Filed X .device d := by
    obtain hstaged | ⟨-, hstored, -⟩ := recipient_ok hd
    · obtain ⟨hmem, hid⟩ := stagedDevice_some hstaged
      obtain ⟨m', hm', hbrings'⟩ := EpochCommit.mem_before_staged hmem
      exact ⟨hid, h.files hm' hbrings' (by simp)⟩
    · obtain ⟨o, ho, hbody⟩ := object_eq_some.mp hstored
      obtain ⟨hid, hold⟩ := hs.filed (show (st.ledger c).objects.find? _ = some o from ho) hbody
      exact ⟨hid, (hold.mono hg).mono h.steps.grows⟩
  exact ⟨d, hfiled.1, hfiled.2, h.files hm hbrings (by simp), hkind, hto,
    by rw [h.epoch, hnumber], hkey⟩

end Service

/-! ## Who is a member -/

section Members

variable {X : Crypto} {st : Store} {c : Chain} {genesis reseed : Bool} {id : String}
  {epoch : Json} {envelopes staged : List Json}

theorem mem_existingDevices : id ∈ existingDevices st c genesis reseed ↔
    ∃ r, st.registry.find? id = some r ∧ r.status ≠ .revoked ∧ genesis = false ∧
      (reseed = true ∨ r.generation = c.generation) := by
  rw [existingDevices, sortIds, List.mem_insertionSort]
  simp only [List.mem_map, List.mem_filter, Table.mem_select, Bool.and_eq_true,
    Bool.not_eq_true', Bool.or_eq_true, beq_iff_eq, bne_iff_ne]
  constructor
  · rintro ⟨r, ⟨⟨hr, hlive⟩, hg, hgen⟩, rfl⟩
    exact ⟨r, Table.find?_of_mem hr, hlive, hg, hgen⟩
  · rintro ⟨r, hr, hlive, hg, hgen⟩
    exact ⟨r, ⟨⟨Table.mem_of_find? hr, hlive⟩, hg, hgen⟩, Table.key_of_find? hr⟩

namespace BundleOk

variable (h : BundleOk X st c epoch envelopes staged genesis reseed)

include h

/-- The members of a checked epoch: whom it keeps, and whom it brings. -/
theorem mem_members : id ∈ strings epoch "members" ↔
    (reseed = false ∧ id ∈ existingDevices st c genesis reseed ∧
      id ∉ strings epoch "revoked_device_ids") ∨ ∃ d ∈ staged, s d "device_id" = id := by
  obtain ⟨members, hadd, hsort, -⟩ := h.members
  rw [← hsort, sortIds, List.mem_insertionSort, addStaged_ok hadd, List.mem_append, List.mem_map]
  refine or_congr_left ?_
  cases reseed <;> simp

theorem covers (hid : id ∈ strings epoch "members") :
    ∃ e ∈ envelopes, s e "recipient_kind" = "device" ∧ s e "recipient_device_id" = id ∧
      EnvelopeOk X st c e epoch staged := by
  obtain ⟨members, -, hsort, hlen, henv⟩ := h.members
  rw [← hsort, sortIds, List.mem_insertionSort] at hid
  exact bundleEnvelopes_covers henv hlen hid

theorem recovery : ∃ e ∈ envelopes, s e "recipient_kind" = "recovery" ∧
    X.objectHash e = s epoch "recovery_envelope_hash" ∧ EnvelopeOk X st c e epoch staged := by
  obtain ⟨members, -, -, -, henv⟩ := h.members
  exact bundleEnvelopes_recovery henv

theorem disjoint (hid : id ∈ strings epoch "members") :
    id ∉ strings epoch "revoked_device_ids" :=
  (validateEpoch_ok h.valid).2 id hid

/-- An epoch that keeps no one has the staged devices as members. -/
theorem length_members (hnone : genesis = true ∨ reseed = true) :
    (strings epoch "members").length = staged.length := by
  obtain ⟨members, hadd, hsort, -⟩ := h.members
  have hkept : (if reseed then [] else (existingDevices st c genesis reseed).filter fun id =>
      !(strings epoch "revoked_device_ids").contains id) = [] := by
    obtain rfl | rfl := hnone
    · have hempty : existingDevices st c true reseed = [] := by
        refine List.eq_nil_iff_forall_not_mem.mpr fun x hx => ?_
        obtain ⟨-, -, -, hg, -⟩ := mem_existingDevices.mp hx
        cases hg
      rw [hempty]
      split <;> rfl
    · rfl
  rw [← hsort, sortIds, List.length_insertionSort, addStaged_ok hadd, hkept]
  simp

end BundleOk

end Members

end PallaSync
