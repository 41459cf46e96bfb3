import PallaSync.Lib.Descent
import PallaSync.Ancestry
import PallaSync.Retries

/-!
# Enrollment provenance

A device is enrolled by a certificate that the admin signed, or a device that
is enrolled itself. A device record is stored only after the one of its signer,
so the certificates lead down to the admin. The import resolver is the one
place where the signer it verifies against is a record of the request: that the
record is the stored one is known by its digest only.
-/

namespace PallaSync

open Atomic Machine

/-! ## Certificates -/

/-- The device record `e` vouches for `d`: its device signed the certificate. -/
structure Vouches (X : Crypto) (d e : Json) : Prop where
  kind : s (d.get "enrollment") "signer_kind" = "device"
  signer : s (d.get "enrollment") "signer_device_id" = s e "device_id"
  generation : n e "generation" = n d "generation"
  verified : verify X (d.get "enrollment") (s e "device_public_key") .enrollment = .ok ()

/-- The admin signed the certificate. -/
structure CertifiedByAdmin (X : Crypto) (admin : String) (d : Json) : Prop where
  kind : s (d.get "enrollment") "signer_kind" = "admin"
  verified : verify X (d.get "enrollment") admin .enrollment = .ok ()

/-- What of `Vouches` the identifiers tell. -/
structure NamesSigner (d e : Json) : Prop where
  kind : s (d.get "enrollment") "signer_kind" = "device"
  signer : s (d.get "enrollment") "signer_device_id" = s e "device_id"

/-- `link`, to a stored device. -/
def Store.Linking (st : Store) (link : Json → Json → Prop) (d e : Json) : Prop :=
  link d e ∧ st.object .device (s e "device_id") = some e

/-- Every stored device has certificates down to the admin. -/
def Store.Certified (X : Crypto) (link : Json → Json → Prop) (admin : String) (st : Store) : Prop :=
  ∀ id d, st.object .device id = some d →
    Descent.Grounded (CertifiedByAdmin X admin) (st.Linking link) d

section Checks

variable {X : Crypto} {st : Store} {c : Chain} {d : Json}

/-- The two kinds of signers. -/
theorem validateDevice_signer (h : validateDevice X d = .ok ()) :
    s (d.get "enrollment") "signer_kind" = "admin" ∨
      s (d.get "enrollment") "signer_kind" = "device" := by
  simp only [validateDevice, validateCertificate, signed, Check.bind_ok] at h
  obtain ⟨_, -, _, ⟨_, ⟨_, -, _, hfields, -⟩, -⟩, -⟩ := h
  have hkind := fields_checked (f := ("signer_kind", .oneOf ["admin", "device"])) hfields (by simp)
  simp only [checkType, Option.any_eq_true, List.contains_iff_mem, List.mem_cons,
    List.not_mem_nil, or_false] at hkind
  obtain ⟨text, htext, hkind⟩ := hkind
  rw [s, htext, Option.getD_some]
  exact hkind

/-- The certificate of an accepted device. -/
theorem device_certified {request : Option Json} {genesis : Bool}
    (h : device X st c d request genesis = .ok ())
    (hids : ∀ id e, st.object .device id = some e → s e "device_id" = id) :
    CertifiedByAdmin X c.adminPublicKey d ∨ ∃ e, st.Linking (Vouches X) d e := by
  have hok := device_ok h
  simp only [device, Check.bind_ok] at h
  obtain ⟨_, hv, _, -, _, -, _, -, _, -, _, -, _, -, _, hcert, -⟩ := h
  unfold certificate at hcert
  dsimp only at hcert
  split at hcert
  · rename_i hkind
    simp only [Check.bind_ok, Check.orElse_ok] at hcert
    obtain ⟨_, -, key, hkey, hverify⟩ := hcert
    rw [signingKey, if_neg (by rw [hkind]; decide)] at hkey
    simp only [activeDevice, Check.bind_ok, Check.require_ok, Check.failIf_ok, Check.pure_ok,
      bne_eq_false_iff_eq] at hkey
    obtain ⟨e, he, _, hgen, -, -, -, -, rfl⟩ := hkey
    have hid := hids _ _ he
    exact .inr ⟨e, ⟨hkind, hid.symm, hgen.trans hok.generation.symm, hverify⟩, hid.symm ▸ he⟩
  · rename_i hkind
    exact .inl ⟨(validateDevice_signer hv).resolve_right hkind, Check.orElse_ok.mp hcert⟩

/-- A device that comes with an epoch is certified by the admin. -/
theorem stagedDeviceCheck_certified (h : stagedDeviceCheck X st c d = .ok ()) :
    CertifiedByAdmin X c.adminPublicKey d := by
  simp only [stagedDeviceCheck, Check.bind_ok, Check.failIf_ok, bne_eq_false_iff_eq] at h
  obtain ⟨_, h, hkind⟩ := h
  simp only [device, Check.bind_ok] at h
  obtain ⟨_, -, _, -, _, -, _, -, _, -, _, -, _, -, _, hcert, -⟩ := h
  rw [certificate, if_neg (by rw [hkind]; decide)] at hcert
  exact ⟨hkind, Check.orElse_ok.mp hcert⟩

end Checks

/-! ## Stored devices -/

/-- The row of every stored device has a body, of that device. -/
def Store.KeepsDevices (X : Crypto) (st : Store) : Prop :=
  ∀ id o, st.objects.find? (.device, id) = some o →
    ∃ d, o.body = some d ∧ s d "device_id" = id ∧ X.objectHash d = o.objectHash

section Devices

variable {X : Crypto} {link : Json → Json → Prop} {admin : String} {st st' : Store} {c : Chain}
  {d e : Json} {id : String}

theorem Sound.keepsDevices (h : Sound X (st.ledger c)) : st.KeepsDevices X := by
  intro id o ho
  obtain ⟨d, hbody, hid⟩ := h.device_body ho
  exact ⟨d, hbody, hid, ((h.object_of_find? ho).body d hbody).1⟩

theorem Store.KeepsDevices.device_id (h : st.KeepsDevices X) (hd : st.object .device id = some d) :
    s d "device_id" = id := by
  obtain ⟨o, ho, hbody⟩ := object_eq_some.mp hd
  obtain ⟨d', hbody', hid, -⟩ := h id o ho
  obtain rfl := Option.some.inj (hbody.symm.trans hbody')
  exact hid

/-- More devices, more links. -/
theorem Store.Linking.mono (h : st.Linking link d e)
    (hobj : ∀ id x, st.object .device id = some x → st'.object .device id = some x) :
    st'.Linking link d e :=
  ⟨h.1, hobj _ _ h.2⟩

theorem grounded_mono (h : Descent.Grounded (CertifiedByAdmin X admin) (st.Linking link) d)
    (hobj : ∀ id x, st.object .device id = some x → st'.object .device id = some x) :
    Descent.Grounded (CertifiedByAdmin X admin) (st'.Linking link) d :=
  h.mono (fun _ h => h) fun _ _ h => h.mono hobj

/-- New devices are vouched for by old ones. -/
theorem Store.Certified.extended (h : st.Certified X link admin)
    (hobj : ∀ id x, st.object .device id = some x → st'.object .device id = some x)
    (hnew : ∀ id x, st'.object .device id = some x → st.object .device id = some x ∨
      CertifiedByAdmin X admin x ∨ ∃ y, st.Linking link x y) : st'.Certified X link admin := by
  intro id x hx
  obtain hold | hroot | ⟨y, hlink⟩ := hnew id x hx
  · exact grounded_mono (h id x hold) hobj
  · exact .root hroot
  · exact .link (hlink.mono hobj) (grounded_mono (h _ y hlink.2) hobj)

theorem Path.keeps_device {Q : Move → Ledger → Prop} {a b : Cell} (h : Path X Q a b)
    (hd : a.store.object .device id = some d) : b.store.object .device id = some d := by
  obtain ⟨ms, hsteps⟩ := h.steps
  obtain ⟨o, ho, hbody⟩ := object_eq_some.mp hd
  exact object_eq_some.mpr (hsteps.grows.body (by simp [Kind.removable]) ho hbody)

end Devices

/-! ## The resolver -/

/-- A signer of the import `v` that has the digest of a stored device is as good
as that device. -/
def Answers (X : Crypto) (link : Json → Json → Prop) (v : Json) (st : Store) : Prop :=
  ∀ e ∈ a v "device_history", ∀ id e', st.object .device id = some e' →
    s e "device_id" = s e' "device_id" → X.objectHash e = X.objectHash e' →
    ∀ x, Vouches X x e → link x e'

/-- What holds while devices are resolved; `verified` are the ones that were. -/
structure Resolving (X : Crypto) (link : Json → Json → Prop) (admin : String) (v : Json)
    (st : Store) (verified : List (String × Json)) : Prop where
  kept : st.KeepsDevices X
  vouched : st.Certified X link admin
  verified : ∀ id e, verified.lookup id = some e → e ∈ a v "device_history" ∧
    s e "device_id" = id ∧ ∃ o, st.objects.find? (.device, id) = some o ∧
      o.objectHash = X.objectHash e

section Resolver

variable {X : Crypto} {link : Json → Json → Prop} {admin : String} {v : Json} {w w' : Work}
  {verified : List (String × Json)}

/-- A device whose signer is known is certified, by the admin or by a stored
device. -/
theorem certificateKey_certified {key : String} {d : Json}
    (hlink : ∀ d e, Vouches X d e → link d e) (hd : validate X d .device = .ok ())
    (hI : Resolving X link admin v w.cell.store verified)
    (hres : Answers X link v w.cell.store)
    (hkey : certificateKey w.cell.store admin verified d = .ok (some key))
    (hverify : verify X (d.get "enrollment") key .enrollment = .ok ()) :
    CertifiedByAdmin X admin d ∨ ∃ e, w.cell.store.Linking link d e := by
  unfold certificateKey at hkey
  dsimp only at hkey
  split at hkey
  · rename_i hkind
    obtain rfl := Option.some.inj (Except.ok.inj hkey)
    exact .inl ⟨hkind, hverify⟩
  · rename_i hkind
    have hkind := (validateDevice_signer hd).resolve_left hkind
    split at hkey
    · rename_i signer hlookup
      simp only [Check.bind_ok, Check.failIf_ok, bne_eq_false_iff_eq, Check.pure_ok,
        Option.some.injEq] at hkey
      obtain ⟨_, hgen, rfl⟩ := hkey
      obtain ⟨hmem, hid, o, ho, hhash⟩ := hI.verified _ _ hlookup
      obtain ⟨e, hbody, heid, hehash⟩ := hI.kept _ o ho
      have hstored := object_eq_some.mpr ⟨o, ho, hbody⟩
      refine .inr ⟨e, hres signer hmem _ e hstored (hid.trans heid.symm)
        (hhash.symm.trans hehash.symm) d ⟨hkind, hid.symm, hgen, hverify⟩, heid.symm ▸ hstored⟩
    · simp only [Except.ok.injEq, Option.map_eq_some_iff, Option.filter_eq_some_iff,
        beq_iff_eq] at hkey
      obtain ⟨e, ⟨hstored, hgen⟩, rfl⟩ := hkey
      have hid := Store.KeepsDevices.device_id hI.kept hstored
      exact .inr ⟨e, hlink d e ⟨hkind, hid.symm, hgen, hverify⟩, hid.symm ▸ hstored⟩

theorem stageDevice_resolving {key : String} {d : Json}
    (hlink : ∀ d e, Vouches X d e → link d e) (hmem : d ∈ a v "device_history")
    (hd : validate X d .device = .ok ())
    (hI : Resolving X link admin v w.cell.store verified)
    (hres : Answers X link v w.cell.store)
    (hkey : certificateKey w.cell.store admin verified d = .ok (some key))
    (h : stageDevice X key d w = .ok ((), w')) :
    Resolving X link admin v w'.cell.store ((s d "device_id", d) :: verified) := by
  have hobj : ∀ id x, w.cell.store.object .device id = some x →
      w'.cell.store.object .device id = some x := fun id x =>
    (stageDevice_path hmem h).keeps_device
  simp only [stageDevice, bind_ok, lift_ok, Check.orElse_ok, pure_ok] at h
  obtain ⟨_, _, ⟨hverify, rfl⟩, _, _, ⟨-, rfl⟩, fresh, _, hput, -, rfl⟩ := h
  have hcert := certificateKey_certified hlink hd hI hres hkey hverify
  have hverified {w' : Work} {o : ObjectRow}
      (ho : w'.cell.store.objects.find? (.device, s d "device_id") = some o)
      (hhash : o.objectHash = X.objectHash d)
      (hold : ∀ q o, w.cell.store.objects.find? q = some o → w'.cell.store.objects.find? q = some o)
      (id : String) (e : Json) (he : ((s d "device_id", d) :: verified).lookup id = some e) :
      e ∈ a v "device_history" ∧ s e "device_id" = id ∧
        ∃ o, w'.cell.store.objects.find? (.device, id) = some o ∧
          o.objectHash = X.objectHash e := by
    rw [List.lookup_cons] at he
    split at he
    · rename_i hid
      obtain rfl := Option.some.inj he
      rw [beq_iff_eq] at hid
      exact ⟨hmem, hid.symm, o, hid ▸ ho, hhash⟩
    · obtain ⟨hin, hid, o', ho', hhash'⟩ := hI.verified id e he
      exact ⟨hin, hid, o', hold _ _ ho', hhash'⟩
  obtain ⟨-, rfl, o, ho, hhash⟩ | ⟨-, hfree, -, tab, htab, rfl⟩ := putObject_ok hput
  · exact ⟨hI.kept, hI.vouched, hverified ho hhash fun _ _ h => h⟩
  · have hnew : tab.find? (.device, s d "device_id") = some (newRow X .device d none) :=
      (htab _).trans (if_pos rfl)
    have hrow (id : String) {o : ObjectRow} (ho : tab.find? (.device, id) = some o) :
        w.cell.store.objects.find? (.device, id) = some o ∨
          id = s d "device_id" ∧ o = newRow X .device d none := by
      rw [htab] at ho
      split at ho
      · rename_i hq
        exact .inr ⟨congrArg Prod.snd hq, (Option.some.inj ho).symm⟩
      · exact .inl ho
    refine ⟨fun id o ho => ?_, hI.vouched.extended hobj fun id x hx => ?_,
      hverified hnew rfl fun q o ho => ?_⟩
    · obtain hold | ⟨rfl, rfl⟩ := hrow id ho
      · exact hI.kept id o hold
      · exact ⟨d, rfl, rfl, rfl⟩
    · obtain ⟨o, ho, hbody⟩ := object_eq_some.mp hx
      obtain hold | ⟨rfl, rfl⟩ := hrow id ho
      · exact .inl (object_eq_some.mpr ⟨o, hold, hbody⟩)
      · obtain rfl := Option.some.inj hbody
        exact .inr hcert
    · refine (htab q).trans ?_
      rw [if_neg, ho]
      rintro rfl
      exact absurd (ho.symm.trans hfree) (by simp)

theorem Answers.earlier (h : Answers X link v w'.cell.store)
    (hobj : ∀ id x, w.cell.store.object .device id = some x →
      w'.cell.store.object .device id = some x) : Answers X link v w.cell.store :=
  fun e he id e' hstored => h e he id e' (hobj id e' hstored)

theorem resolvePass_resolving {ds : List Json} {r : List Json × List (String × Json)}
    (hlink : ∀ d e, Vouches X d e → link d e) (hmem : ∀ d ∈ ds, d ∈ a v "device_history")
    (hvalid : ∀ d ∈ a v "device_history", validate X d .device = .ok ())
    (hI : Resolving X link admin v w.cell.store verified)
    (hres : Answers X link v w'.cell.store)
    (h : resolvePass X admin ds verified w = .ok (r, w')) :
    Resolving X link admin v w'.cell.store r.2 := by
  induction ds generalizing w verified r with
  | nil =>
      obtain ⟨rfl, rfl⟩ := pure_ok.mp h
      exact hI
  | cons d ds ih =>
      have hd := hmem d List.mem_cons_self
      have hds : ∀ d ∈ ds, d ∈ a v "device_history" := fun x hx =>
        hmem x (List.mem_cons_of_mem _ hx)
      have hpath := (resolvePass_path hmem h).1
      have hhere := hres.earlier fun id x => hpath.keeps_device
      simp only [resolvePass, bind_ok, check_ok] at h
      obtain ⟨k, _, ⟨hkey, rfl⟩, h⟩ := h
      cases k with
      | some key =>
          obtain ⟨_, w₁, hstage, h⟩ := bind_ok.mp h
          exact ih hds (stageDevice_resolving hlink hd (hvalid d hd) hI hhere hkey hstage) h
      | none =>
          obtain ⟨r₁, w₁, hrest, h⟩ := bind_ok.mp h
          obtain ⟨rfl, rfl⟩ := pure_ok.mp h
          have hnext := ih hds hI hrest
          exact hnext

theorem resolveDevices_resolving {fuel : Nat} {ds : List Json}
    (hlink : ∀ d e, Vouches X d e → link d e) (hmem : ∀ d ∈ ds, d ∈ a v "device_history")
    (hvalid : ∀ d ∈ a v "device_history", validate X d .device = .ok ())
    (hI : Resolving X link admin v w.cell.store verified)
    (hres : Answers X link v w'.cell.store)
    (h : resolveDevices X admin fuel ds verified w = .ok ((), w')) :
    w'.cell.store.KeepsDevices X ∧ w'.cell.store.Certified X link admin := by
  induction fuel generalizing w ds verified with
  | zero =>
      cases ds with
      | nil =>
          obtain ⟨-, rfl⟩ := pure_ok.mp h
          exact ⟨hI.kept, hI.vouched⟩
      | cons d ds => exact (throw_ok.mp h).elim
  | succ fuel ih =>
      cases ds with
      | nil =>
          obtain ⟨-, rfl⟩ := pure_ok.mp h
          exact ⟨hI.kept, hI.vouched⟩
      | cons d ds =>
          simp only [resolveDevices, bind_ok, failIf_ok] at h
          obtain ⟨r, w₁, hpass, _, _, ⟨-, rfl⟩, h⟩ := h
          obtain ⟨-, hsub⟩ := resolvePass_path hmem hpass
          have hpath := resolveDevices_path hsub h
          exact ih hsub (resolvePass_resolving hlink hmem hvalid hI
            (hres.earlier fun id x => hpath.keeps_device) hpass) h

end Resolver

/-! ## Imports -/

/-- The stored devices are the same. -/
def deviceFrame : Frame Work where
  rel w w' := ∀ id, w'.cell.store.objects.find? (.device, id) =
    w.cell.store.objects.find? (.device, id)
  refl _ _ := rfl
  trans h h' id := (h' id).trans (h id)

section Imports

variable {R : Relay} {X : Crypto} {link : Json → Json → Prop} {v : Json} {a b mid : Cell}

theorem putObject_devices {kind : Kind} (hk : kind ≠ .device) (v : Json)
    (log : Option (String × Nat)) : Keeps deviceFrame (putObject X kind v log) := by
  intro w fresh w' h id
  obtain ⟨-, rfl, -⟩ | ⟨-, -, -, tab, htab, rfl⟩ := putObject_ok h
  · rfl
  · refine (htab _).trans (if_neg fun hq => hk ?_)
    exact (congrArg Prod.fst hq).symm

theorem look_devices {α : Type} (f : Store → α) : Keeps deviceFrame (look f) := by
  intro w x w' h id
  obtain ⟨-, rfl⟩ := look_ok.mp h
  rfl

theorem check_devices {α : Type} (f : Store → Chain → Except ApiError α) :
    Keeps deviceFrame (check f) := by
  intro w x w' h id
  obtain ⟨-, rfl⟩ := check_ok.mp h
  rfl

theorem stageParameters_devices (admin : String) (p : Json) :
    Keeps deviceFrame (stageParameters X admin p) :=
  .bind (.failIf _ _) fun _ => .bind (.lift _) fun _ => .bind (look_devices _) fun _ =>
    .bind (.failIf _ _) fun _ => .bind (putObject_devices (by simp) _ _) fun _ => .pure _

theorem stageEpoch_devices (admin : String) (e : Json) :
    Keeps deviceFrame (stageEpoch X admin e) :=
  .bind (look_devices _) fun _ => .bind (.failIf _ _) fun _ => .bind (check_devices _) fun _ =>
    .bind (.lift _) fun _ => .bind (look_devices _) fun _ => .bind (.failIf _ _) fun _ =>
    .bind (putObject_devices (by simp) _ _) fun _ => .pure _

theorem stageEnvelope_devices (admin : String) (e : Json) :
    Keeps deviceFrame (stageEnvelope X admin e) :=
  .bind (check_devices _) fun _ => .bind (check_devices _) fun _ => .bind (.lift _) fun _ =>
    .bind (putObject_devices (by simp) _ _) fun _ => .pure _

theorem stageCompaction_devices (comp : Json) : Keeps deviceFrame (stageCompaction X comp) :=
  .bind (look_devices _) fun _ => .bind (.require _ _) fun _ => .bind (.lift _) fun _ =>
    .bind (putObject_devices (by simp) _ _) fun _ => .pure _

theorem object_of_find? {st st' : Store} {id : String}
    (h : st'.objects.find? (.device, id) = st.objects.find? (.device, id)) :
    st'.object .device id = st.object .device id := by
  simp only [Store.object, h]

theorem terminalHead_admin {st : Store} {p e : Json} {c : Chain} (hc : st.chain = some c)
    (h : terminalHead X st p e = .ok ()) : c.adminPublicKey = s p "admin_public_key" := by
  simp only [terminalHead, Check.bind_ok, Check.failIf_ok, hc, Option.any_some,
    Bool.or_eq_false_iff, bne_eq_false_iff_eq] at h
  obtain ⟨_, ⟨-, hadmin⟩, -⟩ := h
  exact hadmin

/-- What an import stores is vouched for. -/
theorem Imported.certified (h : Imported R v a mid b)
    (hlink : ∀ d e, Vouches R.crypto d e → link d e) (hkept : a.store.KeepsDevices R.crypto)
    (hv : a.store.Certified R.crypto link (s (terminalParameters v) "admin_public_key"))
    (hres : Answers R.crypto link v mid.store) :
    mid.store.Certified R.crypto link (s (terminalParameters v) "admin_public_key") := by
  have hvalid : ∀ d ∈ PallaSync.a v "device_history",
      validate R.crypto d .device = .ok () := fun d hd => by
    have hall := Check.each_ok.mp h.objects (.device, "device_history") (by simp [importKinds])
    have hd := Check.each_ok.mp hall d hd
    simp only [importObject, Check.bind_ok] at hd
    exact hd.choose_spec.1
  obtain ⟨w, w', rfl, rfl, hstage⟩ := h.staging
  simp only [stageObjects, bind_ok] at hstage
  obtain ⟨_, w₁, h₁, _, w₂, h₂, hrest⟩ := hstage
  have hfirst : deviceFrame.rel w w₁ :=
    Keeps.each (fun p => stageParameters_devices _ p) _ _ _ _ h₁
  have hlast : deviceFrame.rel w₂ w' := by
    obtain ⟨_, w₃, h₃, _, w₄, h₄, h₅⟩ := hrest
    exact deviceFrame.trans (Keeps.each (fun e => stageEpoch_devices _ e) _ _ _ _ h₃)
      (deviceFrame.trans (Keeps.each (fun e => stageEnvelope_devices _ e) _ _ _ _ h₄)
        (Keeps.each (fun c => stageCompaction_devices c) _ _ _ _ h₅))
  have hI : Resolving R.crypto link (s (terminalParameters v) "admin_public_key") v
      w₁.cell.store [] := by
    refine ⟨fun id o ho => hkept id o ((hfirst id).symm.trans ho), fun id d hd => ?_,
      fun id e he => by cases he⟩
    rw [object_of_find? (hfirst id)] at hd
    exact grounded_mono (hv id d hd) fun id x hx => (object_of_find? (hfirst id)).trans hx
  have hdone := (resolveDevices_resolving hlink (fun _ hd => hd) hvalid hI
    (hres.earlier fun id x hx => (object_of_find? (hlast id)).trans hx) h₂).2
  intro id d hd
  rw [object_of_find? (hlast id)] at hd
  exact grounded_mono (hdone id d hd) fun id x hx => (object_of_find? (hlast id)).trans hx

end Imports

/-! ## Enrollments -/

section Acts

variable {R : Relay} {link : Json → Json → Prop} {id : String} {cause : Option Call} {v x : Json}
  {a b mid : Cell} {call : Call} {st st' : Store} {c : Chain}

/-- A new device is certified, by the admin or by a stored device. -/
def Newcomer (X : Crypto) (c : Chain) (st : Store) (x : Json) : Prop :=
  CertifiedByAdmin X c.adminPublicKey x ∨ ∃ e, st.Linking (Vouches X) x e

theorem log_keeps_devices {X : Crypto} {kind : Kind} {L L' : Ledger} (hk : kind ≠ .device)
    (h : Steps X [.log kind v] L L') (hx : L'.Has .device x) : L.Has .device x := by
  obtain hx | ⟨m, hm, hb⟩ := h.has hx
  · exact hx
  · obtain rfl := List.mem_singleton.mp hm
    cases hb
    exact absurd rfl hk

theorem Committed.enlisted {X : Crypto} {commit : EpochCommit} {L M M' L' : Ledger}
    {entry : Option LogEntry} {r : Receipt} (h : Committed X commit L M M' L' entry r)
    (hx : L'.Has .device x) : L.Has .device x ∨ x ∈ commit.staged := by
  have hafter : M'.Has .device x := h.after.has_of_none (fun m hm => by
    simp only [EpochCommit.after, List.mem_append, List.mem_map, List.mem_singleton] at hm
    obtain ⟨id, -, rfl⟩ | rfl := hm <;> rfl) hx
  obtain hx | he := h.logged.has hafter
  · refine (h.before.has hx).imp_right fun hbrought => ?_
    obtain ⟨m, hm, hb⟩ := hbrought
    simp only [EpochCommit.before, List.mem_append, List.mem_map] at hm
    obtain (⟨d, hd, rfl⟩ | ⟨e, -, rfl⟩) | ⟨o, -, rfl⟩ := hm
    · cases hb
      exact (List.perm_insertionSort _ _).subset hd
    · cases hb
    · cases hb
  · cases he

theorem Enrolled.newcomer {auth : Auth} {request : Option Json}
    (h : Enrolled R auth v request a b) (hkept : a.store.KeepsDevices R.crypto)
    (hx : b.ledger.Has .device x) :
    a.ledger.Has .device x ∨ Newcomer R.crypto a.chain a.store x := by
  refine (h.moves.steps.has hx).imp_right fun hbrought => ?_
  obtain ⟨m, hm, hb⟩ := hbrought
  simp only [List.cons_append, List.mem_cons, List.mem_append, List.mem_map] at hm
  obtain rfl | ⟨e, -, rfl⟩ | ⟨o, -, rfl⟩ := hm
  · cases hb
    have hcheck := h.checked
    simp only [enrollCheck, Check.bind_ok] at hcheck
    obtain ⟨_, hdevice, -⟩ := hcheck
    exact device_certified hdevice fun _ _ he => Store.KeepsDevices.device_id hkept he
  · cases hb
  · cases hb

theorem Rotated.newcomer {auth : Auth} {target : Option String}
    (h : Rotated R auth v target a b) (hx : b.ledger.Has .device x) :
    a.ledger.Has .device x ∨ Newcomer R.crypto a.chain a.store x := by
  obtain ⟨M, M', entry, r, hc⟩ := h.committed
  refine (hc.enlisted hx).imp_right fun hmem => .inl ?_
  have hcheck := h.checked
  simp only [epochCheck, Check.bind_ok, Check.each_ok] at hcheck
  obtain ⟨_, -, _, -, _, hd, -⟩ := hcheck
  exact stagedDeviceCheck_certified (hd x hmem)

theorem Reseeded.newcomer {imported : Import} (h : Reseeded R v imported c a mid b)
    (hx : b.ledger.Has .device x) :
    a.ledger.Has .device x ∨ Newcomer R.crypto a.chain a.store x := by
  obtain ⟨M₀, M, M', entry, r, done, hpar, hcommit, -, hcomp⟩ := h.moves
  obtain ⟨ms, hg⟩ := h.adopted.guided
  have hdone : done.ledger.Has .device x := log_keeps_devices (by simp) hcomp hx
  obtain hx | hmem := hcommit.enlisted hdone
  · have hmid : mid.ledger.Has .device x := log_keeps_devices (by simp) hpar hx
    exact (hg.has (P := False) (fun m M _ hq _ hb => .inl (hq.has hb)) hmid).imp_right False.elim
  · have hcert := stagedDeviceCheck_certified (h.devices x hmem)
    obtain ⟨notice, hc⟩ := h.chain
    have hadmin : c.adminPublicKey = a.chain.adminPublicKey := by
      rw [hc]
      exact (reseedCheck_ok h.checked).adminPublicKey
    exact .inr (.inl (hadmin ▸ hcert))

theorem Begun.newcomer (h : Begun R v c a b) (hkept : a.store.KeepsDevices R.crypto)
    (hx : b.ledger.Has .device x) :
    a.ledger.Has .device x ∨ Newcomer R.crypto c a.store x := by
  obtain ⟨M₀, M, M', M₁, entry, r, ms, hpar, hcommit, hms, hrest⟩ := h.moves
  have hx₁ := hrest.has_of_none (fun m hm => by
    have := hms m hm
    cases m <;> first | rfl | exact this.elim) hx
  obtain hx | hmem := hcommit.enlisted hx₁
  · have hfirst : (a.store.ledger c).Has .device x := log_keeps_devices (by simp) hpar hx
    exact .inl hfirst
  · obtain rfl := List.mem_singleton.mp hmem
    have hcheck := h.checked
    simp only [genesisCheck, Check.bind_ok] at hcheck
    obtain ⟨_, hdevice, -⟩ := hcheck
    exact .inr (device_certified hdevice fun _ _ he => Store.KeepsDevices.device_id hkept he)

theorem Mutated.newcomer (h : Mutated R call a b) (hdel : b.store.deletion = none)
    (hkept : a.store.KeepsDevices R.crypto) (hx : b.ledger.Has .device x) :
    a.ledger.Has .device x ∨ Newcomer R.crypto a.chain a.store x := by
  cases h with
  | still hst => exact .inl (hst.has hx)
  | enrolled _ h hst => exact h.newcomer hkept (hst.has hx)
  | rotated _ h => exact h.newcomer hx
  | acknowledged _ h => exact .inl (h.moves.steps.has_of_none (by simp [Move.brings]) hx)
  | snapshotted _ h => exact .inl (log_keeps_devices (by simp) h.moves.steps hx)
  | pruned _ _ h =>
      refine .inl ((h.has hx).resolve_right fun hcar => ?_)
      exact absurd hcar.kind (by simp)
  | reseeded _ _ h => exact h.newcomer hx
  | deleted _ hd _ _ => exact absurd (hdel.symm.trans hd) (by simp)

/-- The admin key is for good. -/
theorem Act.adminPublicKey (h : Act R cause a b) :
    b.chain.adminPublicKey = a.chain.adminPublicKey := by
  obtain ⟨-, hp⟩ | ⟨call, -, -, hrot⟩ | ⟨call, -, -, imported, c, mid, hre⟩ := h.terms
  · rw [Chain.adminPublicKey, hp, Chain.adminPublicKey]
  · rw [Chain.adminPublicKey, hrot.parameters, Chain.adminPublicKey]
  · rw [Chain.adminPublicKey, hre.terms.1]
    exact (reseedCheck_ok hre.checked).adminPublicKey

/-- An act is an import, or brings newcomers only. -/
theorem Act.newcomers (h : Act R cause a b) (hkept : a.store.KeepsDevices R.crypto) :
    (∃ call mid, cause = some call ∧ call.route = .importChain ∧
      Imported R call.value a mid b ∧ Still mid b) ∨
    ∀ x, b.ledger.Has .device x →
      a.ledger.Has .device x ∨ Newcomer R.crypto a.chain a.store x := by
  cases h with
  | still hst => exact .inr fun x hx => .inl (hst.has hx)
  | imported hroute himp hst => exact .inl ⟨_, _, rfl, hroute, himp, hst⟩
  | mutated _ _ h hdel => exact .inr fun x hx => h.newcomer hdel hkept hx
  | item _ h =>
      refine .inr fun x hx => ?_
      obtain hx | ⟨-, ⟨hk, -⟩ | ⟨hk, -⟩⟩ := h.has hx
      · exact .inl hx
      · cases hk
      · cases hk
  | evidence hms h =>
      exact .inr fun x hx => .inl (h.steps.has_of_none (fun m hm => by
        have := hms m hm
        cases m <;> first | rfl | exact this.elim) hx)
  | expired h =>
      exact .inr fun x hx => .inl (h.steps.has_of_none (fun m hm => by
        obtain ⟨e, -, rfl⟩ := List.mem_map.mp hm
        rfl) hx)

/-- Newcomers are vouched for. -/
theorem certified_of_newcomers {X : Crypto} {c' : Chain} (hlink : ∀ d e, Vouches X d e → link d e)
    (hs : Sound X (st.ledger c)) (hs' : Sound X (st'.ledger c'))
    (hg : Grows (st.ledger c) (st'.ledger c')) (hv : st.Certified X link c.adminPublicKey)
    (hnew : ∀ x, st'.Has .device x → st.Has .device x ∨ Newcomer X c st x) :
    st'.Certified X link c.adminPublicKey := by
  refine hv.extended (fun id x hx => ?_) fun id x hx => ?_
  · obtain ⟨o, ho, hbody⟩ := object_eq_some.mp hx
    exact object_eq_some.mpr (hg.body (by simp [Kind.removable]) ho hbody)
  · obtain hold | ⟨-, hnot⟩ := object_old_or_new hs hs' hg (by simp [Kind.removable]) hx
    · exact .inl hold
    · obtain hhas | hroot | ⟨e, he⟩ := hnew x (.of_object hx)
      · exact absurd hhas hnot
      · exact .inr (.inl hroot)
      · exact .inr (.inr ⟨e, hlink _ _ he.1, he.2⟩)

theorem Act.certified (h : Act R cause ⟨st, c⟩ b) (hc : st.chain = some c)
    (hs : Sound R.crypto (st.ledger c)) (hs' : Sound R.crypto b.ledger)
    (hlink : ∀ d e, Vouches R.crypto d e → link d e)
    (hres : ∀ call, cause = some call → call.route = .importChain →
      Answers R.crypto link call.value b.store)
    (hv : st.Certified R.crypto link c.adminPublicKey) :
    b.store.Certified R.crypto link b.chain.adminPublicKey := by
  rw [h.adminPublicKey]
  obtain ⟨call, mid, hcall, hroute, himp, hst⟩ | hnew := h.newcomers hs.keepsDevices
  · have hobjects : b.store.objects = mid.store.objects := congrArg Ledger.objects hst.ledger
    have hobj (id : String) : b.store.object .device id = mid.store.object .device id := by
      simp only [Store.object, hobjects]
    have hadmin : c.adminPublicKey = s (terminalParameters call.value) "admin_public_key" :=
      terminalHead_admin hc himp.head
    have hmid := himp.certified hlink hs.keepsDevices (hadmin ▸ hv) fun e he id e' hstored =>
      hres call hcall hroute e he id e' ((hobj id).trans hstored)
    intro id d hd
    rw [show (⟨st, c⟩ : Cell).chain.adminPublicKey = _ from hadmin]
    exact grounded_mono (hmid id d ((hobj id).symm.trans hd)) fun id x hx => (hobj id).trans hx
  · obtain ⟨ms, hsteps, -⟩ := (h.passage hs).steps
    exact certified_of_newcomers hlink hs hs' hsteps.grows hv fun x hx => hnew x hx

end Acts

/-! ## Runs -/

/-- The signers of an import answer for the stored devices they stand for. -/
def ImportsAnswer (X : Crypto) (link : Json → Json → Prop) (id : String) (w : World)
    (ev : Event) : Prop :=
  ∀ call, w.acting ev = some call → call.chain = id → call.route = .importChain →
    Answers X link call.value ((w.step X ev).store id)

/-- The devices of an undeleted chain are vouched for. -/
def Store.Provenance (X : Crypto) (link : Json → Json → Prop) (st : Store) : Prop :=
  st.deletion = none → ∀ c, st.chain = some c → st.Certified X link c.adminPublicKey

section Runs

variable {X : Crypto} {cfg : RelayConfig} {link : Json → Json → Prop} {admin id : String}
  {w : World} {ev : Event} {R : Relay} {cause : Option Call} {st st' : Store} {c : Chain}

theorem Ledger.Bare.keepsDevices (h : (st.ledger c).Bare) : st.KeepsDevices X := by
  intro i o ho
  cases (h.objects (.device, i)).symm.trans ho

theorem Begun.adminPublicKey {v : Json} {a b : Cell} (h : Begun R v c a b) :
    b.chain.adminPublicKey = c.adminPublicKey := by
  obtain ⟨M₀, M, M', M₁, entry, r, ms, hpar, hcommit, hms, hrest⟩ := h.moves
  obtain ⟨N, hN, hM₁⟩ := hcommit.split
  have hafter : SameTerms M₁ b.ledger := (Ordinary.of_steps hrest fun m hm =>
    Move.ordinary_of_isEvidence (hms m hm)).sameTerms
  have hbefore : SameTerms (a.store.ledger c) N :=
    ((Ordinary.of_steps hpar (by simp [Move.ordinary])).trans hN).sameTerms
  rw [hM₁] at hafter
  have hparameters : b.chain.parameters = c.parameters := hafter.parameters.trans hbefore.parameters
  rw [Chain.adminPublicKey, hparameters, Chain.adminPublicKey]

theorem Store.Certified.congr (h : st.Certified X link admin) (hobj : st'.objects = st.objects) :
    st'.Certified X link admin := by
  have hsame (i : String) : st'.object .device i = st.object .device i := by
    simp only [Store.object, hobj]
  intro i d hd
  exact grounded_mono (h i d ((hsame i).symm.trans hd)) fun i x hx => (hsame i).trans hx

theorem Answers.congr {v : Json} (h : Answers X link v st) (hobj : st'.objects = st.objects) :
    Answers X link v st' := by
  intro e he i e' hstored
  refine h e he i e' ?_
  rw [← hstored]
  simp only [Store.object, hobj]

theorem Ledger.Bare.no_device (h : (st.ledger c).Bare) (i : String) :
    st.object .device i = none := by
  have hnone : st.objects.find? (.device, i) = none := h.objects _
  rw [Store.object, hnone]
  rfl

theorem Ledger.Bare.certified (h : (st.ledger c).Bare) : st.Certified X link admin := by
  intro i d hd
  cases (h.no_device i).symm.trans hd

theorem Acted.certified (h : Acted R id cause st st') (hdel : st.deletion = none)
    (hdel' : st'.deletion = none) (hs : st.Holds (Settled R.crypto id))
    (hs' : st'.Holds (Settled R.crypto id))
    (hlink : ∀ d e, Vouches R.crypto d e → link d e)
    (hres : ∀ call, cause = some call → call.route = .importChain →
      Answers R.crypto link call.value st')
    (hv : st.Provenance R.crypto link) : st'.Provenance R.crypto link := by
  intro _ c' hc'
  cases h with
  | absent _ hnone _ => cases hnone.symm.trans hc'
  | begun hnone _ _ hbegun _ hstored hledger =>
      rename_i call c b _ _ _
      obtain rfl := Option.some.inj (hstored.symm.trans hc')
      have hbare := hs.bare hdel hnone
      intro i x hx
      have hhas : st'.Has .device x := .of_object hx
      have hhas : (st'.ledger b.chain).Has .device x := hhas
      rw [hledger] at hhas
      obtain hold | hroot | ⟨e, he⟩ := hbegun.newcomer hbare.keepsDevices hhas
      · have hold : (st.ledger .unset).Has .device x := hold
        exact absurd hold hbare.not_has
      · rw [hbegun.adminPublicKey]
        exact .root hroot
      · cases (hbare.no_device _).symm.trans he.2
  | staged hnone _ _ himp hstaged _ hstored hledger =>
      rename_i call mid b hcause hroute _
      obtain rfl := Option.some.inj (hstored.symm.trans hc')
      have hbare := hs.bare hdel hnone
      have hobjects : st'.objects = mid.store.objects :=
        congrArg Ledger.objects (hledger.trans hstaged.ledger)
      have hadmin : b.chain.adminPublicKey =
          s (terminalParameters call.value) "admin_public_key" := by
        obtain ⟨logId, tid, notice, hc⟩ := hstaged.chain
        rw [hc]
        rfl
      rw [hadmin]
      refine (himp.certified hlink hbare.keepsDevices hbare.certified ?_).congr hobjects
      exact (hres call hcause hroute).congr hobjects.symm
  | acted hc hact hstored hledger =>
      rename_i c b
      obtain rfl := Option.some.inj (hstored.symm.trans hc')
      have hobjects : st'.objects = b.store.objects := congrArg Ledger.objects hledger
      have hsb : Sound R.crypto b.ledger := hledger ▸ (hs'.ledger hdel' hstored).sound
      refine Store.Certified.congr ?_ hobjects
      exact hact.certified hc (hs.ledger hdel hc).sound hsb hlink
        (fun call hcall hroute => (hres call hcall hroute).congr hobjects.symm) (hv hdel c hc)

/-- In every run whose imports name stored signers, the devices are vouched
for. -/
theorem store_certified_of {es : List Event} (hlink : ∀ d e, Vouches X d e → link d e)
    (hes : StepsMeet (World.step X) (ImportsAnswer X link id) (World.initial cfg) es) :
    (storeAfter X cfg es id).Provenance X link := by
  refine store_invariant_of (C := ImportsAnswer X link id) (fun _ _ hc => by cases hc)
    (fun w ev hw hs hC hv => ?_) hes
  intro hdel'
  obtain ⟨hdel, he | ⟨cause, hacted, hcause⟩⟩ := step_acted X hw ev id hdel'
  · exact he ▸ hv hdel
  · refine hacted.certified hdel hdel' hs (step_settled X hw hs ev) hlink
      (fun call hcall hroute => ?_) hv hdel'
    exact hC call (hcause call hcall).1 (hcause call hcall).2 hroute

end Runs

/-! ## The walk of a deletion -/

section Walk

variable {X : Crypto} {link root : Json → Json → Prop} {admin : String} {st st' : Store} {d : Json}
  {path : List Json}

theorem CertifiedByAdmin.not_linked {e : Json} (h : CertifiedByAdmin X admin d) :
    ¬st.Linking NamesSigner d e := fun hlink => by
  have hkind := h.kind.symm.trans hlink.1.kind
  exact absurd hkind (by decide)

/-- A certificate names one signer. -/
theorem Store.Linking.unique {e e' : Json} (h : st.Linking NamesSigner d e)
    (h' : st.Linking NamesSigner d e') : e = e' := by
  have hsame : s e "device_id" = s e' "device_id" := h.1.signer.symm.trans h'.1.signer
  exact Option.some.inj (h.2.symm.trans (hsame ▸ h'.2))

/-- A way through stored devices passes no identifier twice. -/
theorem path_ids_nodup
    (hpath : Descent.Path (CertifiedByAdmin X admin) (st.Linking NamesSigner) d path)
    (hd : st.object .device (s d "device_id") = some d) :
    (∀ x ∈ path, st.object .device (s x "device_id") = some x) ∧
      (path.map (s · "device_id")).Nodup := by
  have hstored := hpath.all hd fun x y _ hxy => hxy.2
  have hnodup := hpath.nodup (fun x y hx => hx.not_linked) fun x y y' hy hy' => hy.unique hy'
  refine ⟨hstored, hnodup.map_on fun x hx y hy hsame => ?_⟩
  exact Option.some.inj ((hstored x hx).symm.trans (hsame ▸ hstored y hy))

/-- There are not more stored devices than rows. -/
theorem path_length (hstored : ∀ x ∈ path, st.object .device (s x "device_id") = some x)
    (hnodup : (path.map (s · "device_id")).Nodup) : path.length ≤ st.objects.rows.length := by
  have hkeys : ((path.map (s · "device_id")).map (Prod.mk Kind.device)).Nodup :=
    hnodup.map fun _ _ h => (Prod.mk.inj h).2
  have hsub : (path.map (s · "device_id")).map (Prod.mk Kind.device) ⊆
      st.objects.rows.map ObjectRow.key := by
    intro q hq
    obtain ⟨_, hid, rfl⟩ := List.mem_map.mp hq
    obtain ⟨x, hx, rfl⟩ := List.mem_map.mp hid
    obtain ⟨o, ho, -⟩ := object_eq_some.mp (hstored x hx)
    obtain ⟨hmem, hkey⟩ := Table.find?_eq_some.mp ho
    exact List.mem_map.mpr ⟨o, hmem, hkey⟩
  have hlength := (List.subperm_of_subset hkeys hsub).length_le
  simpa using hlength

/-- The walk finds the certificates of the way down. -/
theorem certificateChain_path {fuel : Nat} {seen : List String}
    (hpath : Descent.Path (CertifiedByAdmin X admin) (st.Linking NamesSigner) d path)
    (hd : st.object .device (s d "device_id") = some d)
    (hnodup : (path.map (s · "device_id")).Nodup) (hseen : ∀ x ∈ path, s x "device_id" ∉ seen)
    (hfuel : path.length ≤ fuel) :
    certificateChain st fuel (s d "device_id") seen = .ok (path.map (·.get "enrollment")) := by
  induction hpath generalizing fuel seen with
  | @root x hroot =>
      rw [List.length_singleton] at hfuel
      obtain ⟨fuel, rfl⟩ : ∃ k, fuel = k + 1 := ⟨fuel - 1, by omega⟩
      have hnew : seen.contains (s x "device_id") = false := by
        simpa using hseen x List.mem_cons_self
      simp only [certificateChain, Check.bind_ok, Check.failIf_ok, Check.require_ok]
      refine ⟨(), hnew, x, hd, ?_⟩
      rw [if_pos hroot.kind]
      rfl
  | @link x y path hlink _ ih =>
      rw [List.length_cons] at hfuel
      obtain ⟨fuel, rfl⟩ : ∃ k, fuel = k + 1 := ⟨fuel - 1, by omega⟩
      have hnew : seen.contains (s x "device_id") = false := by
        simpa using hseen x List.mem_cons_self
      obtain ⟨hfresh, hnodup⟩ := List.nodup_cons.mp hnodup
      have hahead : ∀ z ∈ path, s z "device_id" ∉ s x "device_id" :: seen := by
        intro z hz hmem
        obtain hsame | hmem := List.mem_cons.mp hmem
        · exact hfresh (List.mem_map.mpr ⟨z, hz, hsame⟩)
        · exact hseen z (List.mem_cons_of_mem _ hz) hmem
      have hrest := ih hlink.2 hnodup hahead (by omega : path.length ≤ fuel)
      rw [← hlink.1.signer] at hrest
      simp only [certificateChain, Check.bind_ok, Check.failIf_ok, Check.require_ok]
      refine ⟨(), hnew, x, hd, ?_⟩
      rw [if_neg (by rw [hlink.1.kind]; decide), hrest]
      rfl

/-- The walk of a deletion ends at the admin. -/
theorem deletingDevice_walks {auth : Auth} {id : String}
    (hv : st.Certified X NamesSigner admin) (hkept : st.KeepsDevices X)
    (hauth : auth.device = some id)
    (hstored : (st.object .device id).isSome) (hobj : st'.objects = st.objects) :
    ∃ found, deletingDevice st' auth = .ok found := by
  obtain ⟨d, hd⟩ := Option.isSome_iff_exists.mp hstored
  have hv' : st'.Certified X NamesSigner admin := hv.congr hobj
  have hsame (i : String) : st'.object .device i = st.object .device i := by
    simp only [Store.object, hobj]
  obtain ⟨path, hpath⟩ := (hv' id d ((hsame id).trans hd)).exists_path
  obtain rfl := hkept.device_id hd
  have hd' := (hsame _).trans hd
  obtain ⟨hall, hnodup⟩ := path_ids_nodup hpath hd'
  have hlength := path_length hall hnodup
  have hwalk : certificateChain st' (st'.objects.rows.length + 1) (s d "device_id") [] =
      .ok (path.map (·.get "enrollment")) :=
    certificateChain_path hpath hd' hnodup (fun x _ => List.not_mem_nil)
      (Nat.le_succ_of_le hlength)
  refine ⟨((st'.object .device (s d "device_id")).map (s · "device_public_key"),
    path.map (·.get "enrollment")), ?_⟩
  rw [deletingDevice, hauth]
  exact Check.bind_ok.mpr ⟨_, hwalk, rfl⟩

end Walk

/-! ## The answers of a deletion -/

section Answers

variable {R : Relay} {X : Crypto} {e : ApiError} {w : Work} {α : Type} {auth : Auth} {v : Json}

theorem check_avoids {f : Store → Chain → Except ApiError α}
    (h : f w.cell.store w.cell.chain ≠ .error e) : Avoids e w (check f) := by
  unfold Avoids check
  split
  · exact fun he => by cases he
  · rename_i e' he'
    exact fun he => h (he'.trans (congrArg Except.error (Except.error.inj he)))

theorem now_avoids : Avoids e w now := fun h => by cases h

theorem attempt_avoids {f : Store → Option Store} (he : err .storageUnavailable ≠ e) :
    Avoids e w (attempt f) := by
  unfold Avoids attempt
  split
  · exact fun he => by cases he
  · exact fun he' => he (Except.error.inj he')

theorem fields_avoids {required optional : FieldTable} (he : err .invalidField ≠ e) :
    fields X v required optional ≠ .error e := by
  unfold fields
  split
  · exact Check.bind_avoids (Check.failIf_avoids he) fun _ _ => Check.failIf_avoids he
  · exact fun he' => he (Except.error.inj he')

theorem transparency_avoids {op : Operation} {digest : String} {seq : Option Nat}
    {code : Option Code} (hfull : err .storageUnavailable ≠ e) (hsign : err .internalError ≠ e) :
    Avoids e w (transparency X op digest seq code) :=
  .bind (.read _) fun _ _ _ => .bind (.failIf hfull) fun _ _ _ => .bind now_avoids fun _ _ _ =>
    .bind (.require hsign) fun _ _ _ => .bind (attempt_avoids hfull) fun _ _ _ =>
    .bind (.write _) fun _ _ _ => .pure _

theorem quota_avoids {st : Store} (he : e.code ≠ .quotaExceeded) : st.quota R ≠ .error e := by
  unfold Store.quota
  split
  · exact fun h => he (congrArg ApiError.code (Except.error.inj h)).symm
  · exact fun h => by cases h

theorem save_avoids (hsign : err .internalError ≠ e) (hquota : e.code ≠ .quotaExceeded) :
    Avoids e w (save R) :=
  .bind (.read _) fun _ _ _ => .bind (.write _) fun _ _ _ => .bind now_avoids fun _ _ _ =>
    .bind (.require hsign) fun _ _ _ => .bind (.write _) fun _ _ _ =>
    check_avoids (quota_avoids hquota)

/-- The deletion of a device fails in its walk only with the error of the walk. -/
theorem delete_avoids (hauth : auth.device.isSome)
    (hwalk : ∀ st, st.objects = w.cell.store.objects →
      ∃ found, deletingDevice st auth = .ok found) :
    Avoids (err .enrollmentCertificateInvalid) w (delete R auth v) := by
  have hadmin : auth.admin = false := by
    rw [Auth.admin]
    cases h : auth.device with
    | none => rw [h] at hauth; cases hauth
    | some id => rfl
  have hcheck : deleteAuthority R.crypto w.cell.store w.cell.chain auth v ≠
      .error (err .enrollmentCertificateInvalid) := by
    unfold deleteAuthority
    rw [hadmin]
    exact Check.bind_avoids (Check.failIf_avoids (by decide)) fun _ _ =>
      Check.bind_avoids (Check.failIf_avoids (by decide)) fun _ _ =>
      Check.bind_avoids (Check.failIf_avoids (by decide)) fun _ _ => Check.pure_avoids _ _
  unfold delete
  rw [hadmin]
  refine .bind (.lift (fields_avoids (by decide))) fun _ w₁ h₁ => ?_
  obtain ⟨-, rfl⟩ := lift_ok.mp h₁
  refine .bind (check_avoids hcheck) fun _ w₂ h₂ => ?_
  obtain ⟨-, rfl⟩ := check_ok.mp h₂
  refine .bind (.pure _) fun _ w₃ h₃ => ?_
  obtain ⟨-, rfl⟩ := collect_nil_ok.mp h₃
  refine .bind (.read _) fun _ w₄ h₄ => .bind now_avoids fun _ w₅ h₅ =>
    .bind (transparency_avoids (by decide) (by decide)) fun _ w₆ h₆ => ?_
  refine .bind (.read _) fun _ w₇ h₇ => .bind (.lift ?_) fun _ w₈ h₈ => ?_
  · exact Check.bind_avoids (Check.require_avoids (by decide)) fun _ _ => Check.pure_avoids _ _
  obtain ⟨-, rfl⟩ := lift_ok.mp h₈
  obtain ⟨-, rfl⟩ := chain_ok.mp h₇
  obtain ⟨tab, -, hcell, -⟩ := transparency_ok h₆
  obtain ⟨-, rfl⟩ := now_ok.mp h₅
  obtain ⟨-, rfl⟩ := chain_ok.mp h₄
  obtain ⟨found, hfound⟩ := hwalk w₆.cell.store (by rw [hcell])
  refine .bind (check_avoids ?_) fun _ _ _ =>
    .bind (attempt_avoids (by decide)) fun _ _ _ => .pure _
  rw [hfound]
  exact fun h => by cases h

/-- A device that is stored is not stopped by the walk. -/
theorem executeTx_avoids {call : Call} (hroute : call.route = .delete)
    (hwalk : ∀ id st, call.auth.device = some id → (w.cell.store.object .device id).isSome →
      st.objects = w.cell.store.objects → ∃ found, deletingDevice st call.auth = .ok found)
    (hdevice : call.auth.device.isSome) :
    Avoids (err .enrollmentCertificateInvalid) w (executeTx R call) := by
  obtain ⟨id, hid⟩ := Option.isSome_iff_exists.mp hdevice
  simp only [executeTx, hroute]
  refine .bind (.read _) fun _ w₁ h₁ => .bind (.require (by decide)) fun _ w₂ h₂ =>
    .bind (.failIf (by decide)) fun _ w₃ h₃ => .bind (check_avoids ?_) fun _ w₄ h₄ => ?_
  · rw [checkState, hid]
    exact Check.bind_avoids (Check.require_avoids (by decide)) fun _ _ =>
      Check.bind_avoids (Check.failIf_avoids (by decide)) fun _ _ =>
      Check.bind_avoids (Check.require_avoids (by decide)) fun _ _ =>
      Check.bind_avoids (Check.failIf_avoids (by decide)) fun _ _ =>
      Check.failIf_avoids (by decide)
  obtain ⟨-, rfl⟩ := look_ok.mp h₁
  obtain ⟨-, rfl⟩ := require_ok.mp h₂
  obtain ⟨-, rfl⟩ := failIf_ok.mp h₃
  obtain ⟨hstate, rfl⟩ := check_ok.mp h₄
  have hstored : (w.cell.store.object .device id).isSome := by
    rw [checkState, hid] at hstate
    obtain ⟨d, hd, -⟩ := Check.bind_ok.mp hstate
    rw [Check.require_ok.mp hd]
    rfl
  unfold dispatch
  refine .bind (.lift ?_) fun _ w₅ h₅ => ?_
  · simp only [hroute]
    exact Check.failIf_avoids (by decide)
  obtain ⟨-, rfl⟩ := lift_ok.mp h₅
  simp only [hroute, writeRoute]
  refine .bind (.bind (delete_avoids hdevice fun st => hwalk id st hid hstored) fun _ _ _ =>
    .pure _) fun _ _ _ => .bind (.lift (Check.failIf_avoids (by decide))) fun _ _ _ =>
    .bind (save_avoids (by decide) (by decide)) fun _ _ _ =>
    .bind (check_avoids (quota_avoids (by decide))) fun _ _ _ => .pure _

end Answers

/-! ## Provenance -/

/-- The devices of `path` are stored and lead from `d` to the admin, each
certificate verifying under the key of the next device. -/
structure Store.Descends (X : Crypto) (admin : String) (st : Store) (d : Json)
    (path : List Json) : Prop where
  descent : Descent.Path (CertifiedByAdmin X admin) (st.Linking (Vouches X)) d path
  stored : ∀ e ∈ path, st.object .device (s e "device_id") = some e
  once : (path.map (s · "device_id")).Nodup
  generation : ∀ e ∈ path, n e "generation" = n d "generation"

/-- An import of the run has a device record with the identifier and the digest
of a stored one, and is another. -/
def MistakenImport (X : Crypto) (cfg : RelayConfig) (id : String) (es : List Event) : Prop :=
  ∃ es₁ ev es₂ call e e' i, es = es₁ ++ ev :: es₂ ∧
    (World.after X cfg es₁).acting ev = some call ∧ call.chain = id ∧ call.route = .importChain ∧
    e ∈ a call.value "device_history" ∧
    (storeAfter X cfg (es₁ ++ [ev]) id).object .device i = some e' ∧
    s e "device_id" = s e' "device_id" ∧ X.objectHash e = X.objectHash e' ∧ e ≠ e'

section Provenance

variable {X : Crypto} {cfg : RelayConfig} {id : String} {es : List Event}

theorem Vouches.names {d e : Json} (h : Vouches X d e) : NamesSigner d e := ⟨h.kind, h.signer⟩

/-- The links that only name the signer hold in every run. -/
theorem store_named (X : Crypto) (cfg : RelayConfig) (id : String) (es : List Event) :
    (storeAfter X cfg es id).Provenance X NamesSigner := by
  refine store_certified_of (fun _ _ h => h.names) ?_
  obtain h | ⟨es₁, ev, es₂, rfl, hnot⟩ :=
    stepsMeet_or_breaks (World.step X) (ImportsAnswer X NamesSigner id) (.initial cfg) es
  · exact h
  · exact absurd (fun call _ _ _ e _ i e' _ hid _ x hx => ⟨hx.kind, hx.signer.trans hid⟩) hnot

/-- The links that verify hold in every run without a mistaken import. -/
theorem store_certified (X : Crypto) (cfg : RelayConfig) (id : String) (es : List Event) :
    (storeAfter X cfg es id).Provenance X (Vouches X) ∨ MistakenImport X cfg id es := by
  obtain h | ⟨es₁, ev, es₂, rfl, hnot⟩ :=
    stepsMeet_or_breaks (World.step X) (ImportsAnswer X (Vouches X) id) (.initial cfg) es
  · exact .inl (store_certified_of (fun _ _ h => h) h)
  · right
    simp only [ImportsAnswer, Answers, not_forall] at hnot
    obtain ⟨call, hcall, hid, hroute, e, he, i, e', hstored, hdevice, hhash, x, hx, hnot⟩ := hnot
    refine ⟨es₁, ev, es₂, call, e, e', i, rfl, hcall, hid, hroute, he, ?_, hdevice, hhash, ?_⟩
    · rw [storeAfter, World.after, run_snoc]
      exact hstored
    · rintro rfl
      exact hnot hx

end Provenance

/-- After every run that leaves the chain undeleted, the certificates of every
stored device lead through stored devices of its generation to one that the
admin signed, passing no device twice; and a deletion that a device requests is
never refused for its certificates. -/
theorem enrollment_provenance (X : Crypto) (cfg : RelayConfig) (id : String) (es : List Event)
    (c : Chain) (hdel : (storeAfter X cfg es id).deletion = none)
    (hc : (storeAfter X cfg es id).chain = some c) :
    ((∀ i d, (storeAfter X cfg es id).object .device i = some d →
        ∃ path, (storeAfter X cfg es id).Descends X c.adminPublicKey d path) ∨
      MistakenImport X cfg id es) ∧
    ∀ R call w, call.route = .delete → call.auth.device.isSome →
      w.cell.store = storeAfter X cfg es id →
      executeTx R call w ≠ .error (err .enrollmentCertificateInvalid) := by
  have hkept : (storeAfter X cfg es id).KeepsDevices X :=
    ((store_settled X cfg es id).ledger hdel hc).sound.keepsDevices
  refine ⟨(store_certified X cfg id es).imp_left fun hv i d hd => ?_,
    fun R call w hroute hauth hw => ?_⟩
  · obtain ⟨path, hpath⟩ := (hv hdel c hc i d hd).exists_path
    obtain rfl := hkept.device_id hd
    have hnamed : Descent.Path (CertifiedByAdmin X c.adminPublicKey)
        ((storeAfter X cfg es id).Linking NamesSigner) d path :=
      hpath.mono (fun _ h => h) fun _ _ h => ⟨h.1.names, h.2⟩
    obtain ⟨hstored, hnodup⟩ := path_ids_nodup hnamed hd
    refine ⟨path, hpath, hstored, hnodup, hpath.all rfl fun x y hx hxy => ?_⟩
    exact hxy.1.generation.trans hx
  · refine executeTx_avoids hroute (fun i st hi hstored hobj => ?_) hauth
    exact deletingDevice_walks (store_named X cfg id es hdel c hc) hkept hi (hw ▸ hstored)
      (hw ▸ hobj)

namespace Sample

/-- A chain whose admin enrolls a second device. -/
def enrollmentRun : List Event := enrollArrived ++ [enrollCommit]

theorem enrollmentRun_facts :
    ((storeAfter crypto cfg enrollmentRun chainId).deletion.isNone &&
      (storeAfter crypto cfg enrollmentRun chainId).chain.isSome &&
      decide ((storeAfter crypto cfg enrollmentRun chainId).object .device (uid 2) =
        some (device 2 0 0))) = true := by
  decide +kernel

end Sample

/-- The device that the admin enrolled. -/
theorem enrollment_provenance_enrolled : ∃ c : Chain,
    (storeAfter Sample.crypto Sample.cfg Sample.enrollmentRun Sample.chainId).object .device
      (Sample.uid 2) = some (Sample.device 2 0 0) ∧
    ((∃ path, (storeAfter Sample.crypto Sample.cfg Sample.enrollmentRun Sample.chainId).Descends
        Sample.crypto c.adminPublicKey (Sample.device 2 0 0) path) ∨
      MistakenImport Sample.crypto Sample.cfg Sample.chainId Sample.enrollmentRun) := by
  have hfacts := Sample.enrollmentRun_facts
  simp only [Bool.and_eq_true, Option.isNone_iff_eq_none, Option.isSome_iff_exists,
    decide_eq_true_eq] at hfacts
  obtain ⟨⟨hdel, c, hc⟩, hdevice⟩ := hfacts
  have hprov := enrollment_provenance Sample.crypto Sample.cfg Sample.chainId Sample.enrollmentRun
    c hdel hc
  exact ⟨c, hdevice, hprov.1.imp_left fun hall => hall _ _ hdevice⟩

end PallaSync
