import PallaSync.Lib.Passes
import PallaSync.Reach
import PallaSync.Sample

/-!
# The devices of an import

The devices of an import certify each other, and stand in any order. They are
verified in passes (`resolveDevices`), a device as soon as its signer is known.
The order decides neither whether all of them are accepted nor what is stored
(`import_resolution`): they are if and only if every certificate goes back, over
signers of one generation, to the admin or to a device that was stored before.
-/

namespace PallaSync

open Atomic Machine

/-! ## One device -/

/-- Who signed a device's certificate. -/
def signerId (d : Json) : String := s (d.get "enrollment") "signer_device_id"

/-- The certificate is the admin's. -/
abbrev AdminSigned (d : Json) : Prop := s (d.get "enrollment") "signer_kind" = "admin"

/-- A store and the devices verified so far. -/
abbrev Intake := Work × List (String × Json)

/-- Take a device, if its signer is known. -/
def resolveOne (X : Crypto) (admin : String) (d : Json) (r : Intake) :
    Except ApiError (Option Intake) :=
  match certificateKey r.1.cell.store admin r.2 d with
  | .error e => .error e
  | .ok none => .ok none
  | .ok (some key) =>
      match stageDevice X key d r.1 with
      | .error e => .error e
      | .ok t => .ok (some (t.2, (s d "device_id", d) :: r.2))

section Passes

variable {X : Crypto} {admin : String} {ds : List Json} {verified : List (String × Json)} {w : Work}

theorem resolvePass_eq (X : Crypto) (admin : String) (ds : List Json)
    (verified : List (String × Json)) (w : Work) : resolvePass X admin ds verified w =
    (Passes.pass (resolveOne X admin) ds (w, verified)).map fun r => ((r.1, r.2.2), r.2.1) := by
  induction ds generalizing verified w with
  | nil => rfl
  | cons d ds ih =>
      rw [resolvePass, Passes.pass, resolveOne]
      cases hkey : certificateKey w.cell.store admin verified d with
      | error e => exact bind_of_error (by rw [check, hkey])
      | ok key =>
          have hcheck : check (fun st _ => certificateKey st admin verified d) w =
              .ok (key, w) := by
            rw [check, hkey]
          rw [bind_of_ok hcheck]
          cases key with
          | none =>
              have hpass := ih verified w
              dsimp only
              cases hrest : Passes.pass (resolveOne X admin) ds (w, verified) with
              | error e =>
                  rw [hrest] at hpass
                  exact bind_of_error hpass
              | ok r =>
                  rw [hrest] at hpass
                  exact bind_of_ok hpass
          | some key =>
              dsimp only
              cases hd : stageDevice X key d w with
              | error e => exact bind_of_error hd
              | ok t =>
                  rw [bind_of_ok hd]
                  exact ih _ _

theorem resolveDevices_eq {fuel : Nat} : resolveDevices X admin fuel ds verified w =
    (Passes.passes (resolveOne X admin) (err .enrollmentCertificateInvalid) fuel ds
      (w, verified)).map fun r => ((), r.1) := by
  induction fuel generalizing ds w verified with
  | zero => cases ds <;> rfl
  | succ fuel ih =>
      cases ds with
      | nil => rfl
      | cons d ds =>
          have hpass := resolvePass_eq X admin (d :: ds) verified w
          rw [resolveDevices, Passes.passes]
          cases hrest : Passes.pass (resolveOne X admin) (d :: ds) (w, verified) with
          | error e =>
              rw [hrest] at hpass
              exact bind_of_error hpass
          | ok r =>
              rw [hrest] at hpass
              rw [bind_of_ok hpass]
              dsimp only [Except.map]
              by_cases hlen : r.1.length = (d :: ds).length
              · rw [if_pos hlen]
                exact bind_of_error (by simp [failIf, hlen])
              · rw [if_neg hlen]
                refine (bind_of_ok (t := r.2.1) (a := ()) ?_).trans ih
                simpa [failIf] using hlen

end Passes

/-! ## Storing an object -/

section Storing

variable {X : Crypto} {kind : Kind} {v : Json} {log : Option (String × Nat)} {w : Work}

/-- An object that is there is not stored again. -/
theorem putObject_there {o : ObjectRow}
    (hrow : w.cell.store.objects.find? (kind, objectId v kind) = some o)
    (hhash : o.objectHash = X.objectHash v) : putObject X kind v log w = .ok (false, w) := by
  have hdigest := objectDigest_eq_some.mpr ⟨o, hrow, hhash⟩
  rw [putObject]
  refine (bind_of_ok (look_ok.mpr ⟨rfl, rfl⟩)).trans ?_
  rw [hdigest]
  exact bind_of_ok (failIf_ok (u := ()).mpr ⟨by simp, rfl⟩)

/-- An object whose identifier is free is stored. -/
theorem putObject_free (X : Crypto) (v : Json) (log : Option (String × Nat))
    (hrow : w.cell.store.objects.find? (kind, objectId v kind) = none)
    (hsibling : kind.sibling = none) :
    ∃ tab, w.cell.store.objects.insert? (newRow X kind v log) = some tab ∧
      putObject X kind v log w = .ok (true,
        { w with cell := { w.cell with store := { w.cell.store with objects := tab } } }) := by
  have hfree : w.cell.store.objects.find? (newRow X kind v log).key = none := hrow
  obtain ⟨tab, htab⟩ := Table.insert?_of_free hfree
  have hdigest := objectDigest_eq_none.mpr hrow
  refine ⟨tab, htab, ?_⟩
  rw [putObject]
  refine (bind_of_ok (look_ok.mpr ⟨rfl, rfl⟩)).trans ?_
  rw [hdigest]
  refine (bind_of_ok (look_ok.mpr ⟨rfl, rfl⟩)).trans ?_
  rw [hsibling]
  refine (bind_of_ok (failIf_ok (u := ()).mpr ⟨rfl, rfl⟩)).trans
    (bind_of_ok (attempt_ok (u := ()).mpr ⟨_, ?_, rfl⟩))
  exact congrArg (Option.map _) htab

end Storing

theorem stageDevice_verifies {X : Crypto} {key : String} {d : Json} {w : Work} {r : Unit × Work}
    (h : stageDevice X key d w = .ok r) :
    verify X (d.get "enrollment") key .enrollment = .ok () ∧
      verify X d (s d "device_public_key") .deviceRecord = .ok () := by
  obtain ⟨_, w'⟩ := r
  simp only [stageDevice, bind_ok, lift_ok] at h
  obtain ⟨_, _, ⟨hcert, rfl⟩, _, _, ⟨hself, rfl⟩, -⟩ := h
  exact ⟨Check.orElse_ok.mp hcert, hself⟩

/-! ## Signers -/

/-- A device that is listed or stored under an identifier. -/
def Store.Names (st : Store) (ds : List Json) (id : String) (x : Json) : Prop :=
  (x ∈ ds ∧ s x "device_id" = id) ∨ st.object .device id = some x

/-- What is stored and what is listed under one identifier have one hash. -/
def Store.Agrees (X : Crypto) (st : Store) (ds : List Json) : Prop :=
  ∀ id x y, st.Names ds id x → st.Names ds id y → X.objectHash x = X.objectHash y

/-- No two of the stored and the listed devices share a hash. -/
def Store.Distinct (X : Crypto) (st : Store) (ds : List Json) : Prop :=
  ∀ id id' x y, st.Names ds id x → st.Names ds id' y → X.objectHash x = X.objectHash y → x = y

/-- A stored device has its body, under its hash. -/
def Store.Embodied (X : Crypto) (st : Store) : Prop :=
  ∀ id o, st.objects.find? (.device, id) = some o →
    ∃ b, o.body = some b ∧ o.objectHash = X.objectHash b

/-- The certificate of `d` goes back, over signers of its generation, to the
admin or to a stored device. -/
inductive Store.Certifies (X : Crypto) (admin : String) (st : Store) (ds : List Json) :
    Json → Prop where
  | admin {d} : AdminSigned d → verify X (d.get "enrollment") admin .enrollment = .ok () →
      st.Certifies X admin ds d
  | stored {d x} : ¬AdminSigned d → st.object .device (signerId d) = some x →
      n x "generation" = n d "generation" →
      verify X (d.get "enrollment") (s x "device_public_key") .enrollment = .ok () →
      st.Certifies X admin ds d
  | listed {d x} : ¬AdminSigned d → x ∈ ds → s x "device_id" = signerId d →
      n x "generation" = n d "generation" →
      verify X (d.get "enrollment") (s x "device_public_key") .enrollment = .ok () →
      st.Certifies X admin ds x → st.Certifies X admin ds d

/-- The signer of `d` is the admin, or a device among `P` or stored. -/
def Store.Needs (st : Store) (P : Json → Prop) (d : Json) : Prop :=
  AdminSigned d ∨ ∃ x, (P x ∧ s x "device_id" = signerId d ∨
    st.object .device (signerId d) = some x) ∧ n x "generation" = n d "generation"

/-- The key under which the certificate of `d` was signed. -/
def Store.SignKey (admin : String) (st : Store) (ds : List Json) (d : Json) (key : String) : Prop :=
  AdminSigned d ∧ key = admin ∨ ¬AdminSigned d ∧ ∃ x, st.Names ds (signerId d) x ∧
    n x "generation" = n d "generation" ∧ key = s x "device_public_key"

/-- The certificate and the record of `d` verify. -/
def Store.Verifies (X : Crypto) (admin : String) (st : Store) (ds : List Json) (d : Json) : Prop :=
  (∀ key, st.SignKey admin ds d key → verify X (d.get "enrollment") key .enrollment = .ok ()) ∧
    verify X d (s d "device_public_key") .deviceRecord = .ok ()

section Signers

variable {X : Crypto} {admin : String} {st : Store} {ds : List Json} {id : String} {d x y : Json}

theorem Store.Names.unique (ha : st.Agrees X ds) (hd : st.Distinct X ds) (hx : st.Names ds id x)
    (hy : st.Names ds id y) : x = y :=
  hd id id x y hx hy (ha id x y hx hy)

theorem Store.SignKey.unique {key key' : String} (ha : st.Agrees X ds) (hd : st.Distinct X ds)
    (h : st.SignKey admin ds d key) (h' : st.SignKey admin ds d key') : key = key' := by
  obtain ⟨hadmin, rfl⟩ | ⟨hsigned, x, hx, -, rfl⟩ := h
  · obtain ⟨-, rfl⟩ | ⟨hsigned, -⟩ := h'
    · rfl
    · exact absurd hadmin hsigned
  · obtain ⟨hadmin, -⟩ | ⟨-, y, hy, -, rfl⟩ := h'
    · exact absurd hadmin hsigned
    · rw [hx.unique ha hd hy]

/-- Support is what a certificate goes back to. -/
theorem supported_iff (ha : st.Agrees X ds) (hd : st.Distinct X ds) :
    (∀ d ∈ ds, Passes.Supported st.Needs ds d ∧ st.Verifies X admin ds d) ↔
      ∀ d ∈ ds, st.Certifies X admin ds d ∧
        verify X d (s d "device_public_key") .deviceRecord = .ok () := by
  constructor
  · intro h d hmem
    refine ⟨?_, (h d hmem).2.2⟩
    obtain ⟨hsupported, -⟩ := h d hmem
    induction hsupported with
    | @intro d T hmem hneeds hT ih =>
        have hkey := (h d hmem).2.1
        by_cases hadmin : AdminSigned d
        · exact .admin hadmin (hkey admin (.inl ⟨hadmin, rfl⟩))
        · obtain ⟨x, hx, hgen⟩ := hneeds.resolve_left hadmin
          obtain ⟨hxT, hid⟩ | hx := hx
          · have hxmem : x ∈ ds := by
              cases hT x hxT with
              | intro _ hmem _ _ => exact hmem
            exact .listed hadmin hxmem hid hgen
              (hkey _ (.inr ⟨hadmin, x, .inl ⟨hxmem, hid⟩, hgen, rfl⟩)) (ih x hxT hxmem)
          · exact .stored hadmin hx hgen (hkey _ (.inr ⟨hadmin, x, .inr hx, hgen, rfl⟩))
  · intro h d hmem
    obtain ⟨hcert, hself⟩ := h d hmem
    have hverifies : ∀ key, st.SignKey admin ds d key →
        verify X (d.get "enrollment") key .enrollment = .ok () → st.Verifies X admin ds d :=
      fun key hkey hverify => ⟨fun key' hkey' => hkey.unique ha hd hkey' ▸ hverify, hself⟩
    refine ⟨?_, ?_⟩
    · clear hself hverifies
      induction hcert with
      | admin hadmin _ => exact .intro (fun _ => False) hmem (.inl hadmin) (by simp)
      | stored _ hx hgen _ => exact .intro (fun _ => False) hmem (.inr ⟨_, .inr hx, hgen⟩) (by simp)
      | @listed d x _ hx hid hgen _ _ ih =>
          refine .intro (· = x) hmem (.inr ⟨x, .inl ⟨rfl, hid⟩, hgen⟩) fun y hy => ?_
          rw [hy]
          exact ih hx
    · cases hcert with
      | admin hadmin hverify => exact hverifies admin (.inl ⟨hadmin, rfl⟩) hverify
      | stored hadmin hx hgen hverify =>
          exact hverifies _ (.inr ⟨hadmin, _, .inr hx, hgen, rfl⟩) hverify
      | listed hadmin hx hid hgen hverify _ =>
          exact hverifies _ (.inr ⟨hadmin, _, .inl ⟨hx, hid⟩, hgen, rfl⟩) hverify

end Signers

/-! ## Devices taken so far -/

/-- The row that is stored for one of the devices. -/
def takenRow (X : Crypto) (T : List Json) (q : Kind × String) : Option ObjectRow :=
  if q.1 = .device then
    (T.find? fun d => s d "device_id" == q.2).map fun d => newRow X .device d none
  else none

/-- The store `st`, with rows for the devices that had none. -/
def Store.Stages (X : Crypto) (st : Store) (T : List Json) (st' : Store) : Prop :=
  ∃ tab : Table ObjectRow ObjectRow.key, st' = { st with objects := tab } ∧
    ∀ q, tab.find? q = (st.objects.find? q).or (takenRow X T q)

/-- What there is after the devices `T` were taken, the last one first. -/
structure Took (X : Crypto) (w : Work) (ds T : List Json) (r : Intake) : Prop where
  listed : ∀ d ∈ T, d ∈ ds
  verified : r.2 = T.map fun d => (s d "device_id", d)
  cell : r.1 = { w with cell := { w.cell with store := r.1.cell.store } }
  stages : w.cell.store.Stages X T r.1.cell.store

section Taking

variable {X : Crypto} {admin : String} {w : Work} {ds T : List Json} {d x : Json} {r : Intake}

theorem lookup_taken (id : String) : (T.map fun d => (s d "device_id", d)).lookup id =
    T.find? fun d => s d "device_id" == id := by
  induction T with
  | nil => rfl
  | cons x T ih =>
      rw [List.map_cons, List.lookup_cons, List.find?_cons, ih, BEq.comm (a := id)]

theorem Took.object (h : Took X w ds T r) (id : String)
    (hfree : T.find? (fun d => s d "device_id" == id) = none) :
    r.1.cell.store.object .device id = w.cell.store.object .device id := by
  obtain ⟨tab, hst, hfind⟩ := h.stages
  rw [Store.object, Store.object, hst, hfind, takenRow, if_pos rfl, hfree, Option.map_none,
    Option.or_none]

/-- The key by which a device is verified after others were taken. -/
theorem Took.certificateKey_eq (h : Took X w ds T r) :
    certificateKey r.1.cell.store admin r.2 d =
      if AdminSigned d then .ok (some admin)
      else match T.find? fun x => s x "device_id" == signerId d with
        | some x => if n x "generation" = n d "generation" then .ok (some (s x "device_public_key"))
            else .error (err .importConflict)
        | none => .ok (((w.cell.store.object .device (signerId d)).filter fun x =>
            n x "generation" == n d "generation").map (s · "device_public_key")) := by
  have hlookup : r.2.lookup (s (d.get "enrollment") "signer_device_id") =
      T.find? fun x => s x "device_id" == signerId d := by rw [h.verified, lookup_taken, signerId]
  unfold certificateKey
  dsimp only
  rw [hlookup]
  split
  · rfl
  · cases hfind : T.find? fun x => s x "device_id" == signerId d with
    | some x =>
        dsimp only
        by_cases hgen : n x "generation" = n d "generation"
        · rw [if_pos hgen]
          exact Check.bind_ok.mpr ⟨(), Check.failIf_ok.mpr (by simpa using hgen), rfl⟩
        · rw [if_neg hgen]
          simp [Check.failIf, hgen, bind, Except.bind]
    | none =>
        dsimp only
        rw [← signerId, h.object _ hfind]

variable (ha : w.cell.store.Agrees X ds) (hd : w.cell.store.Distinct X ds)

include ha hd

/-- The key of a device whose signer is known. -/
theorem Took.key (h : Took X w ds T r) (hn : w.cell.store.Needs (· ∈ T) d) :
    ∃ key, certificateKey r.1.cell.store admin r.2 d = .ok (some key) ∧
      w.cell.store.SignKey admin ds d key := by
  rw [h.certificateKey_eq]
  by_cases hadmin : AdminSigned d
  · exact ⟨admin, by rw [if_pos hadmin], .inl ⟨hadmin, rfl⟩⟩
  · rw [if_neg hadmin]
    obtain ⟨y, hy, hgen⟩ := hn.resolve_left hadmin
    have hnames : w.cell.store.Names ds (signerId d) y :=
      hy.imp_left fun hy => ⟨h.listed y hy.1, hy.2⟩
    refine ⟨s y "device_public_key", ?_, .inr ⟨hadmin, y, hnames, hgen, rfl⟩⟩
    cases hfind : T.find? fun x => s x "device_id" == signerId d with
    | some x =>
        have hid : s x "device_id" = signerId d := by simpa using List.find?_some hfind
        have hx : w.cell.store.Names ds (signerId d) x :=
          .inl ⟨h.listed x (List.mem_of_find?_eq_some hfind), hid⟩
        obtain rfl := hx.unique ha hd hnames
        exact if_pos hgen
    | none =>
        have hstored : w.cell.store.object .device (signerId d) = some y := by
          refine hy.resolve_left fun hy => ?_
          exact absurd (List.find?_eq_none.mp hfind y hy.1) (by simp [hy.2])
        dsimp only
        rw [hstored, Option.filter_some, if_pos (by simpa using hgen), Option.map_some]

/-- A device whose signer is not known waits, unless its signer is of another
generation. -/
theorem Took.wait (h : Took X w ds T r) (hn : ¬w.cell.store.Needs (· ∈ T) d) :
    certificateKey r.1.cell.store admin r.2 d = .ok none ∨
      (∃ e, certificateKey r.1.cell.store admin r.2 d = .error e) ∧
        ¬w.cell.store.Needs (· ∈ ds) d := by
  rw [h.certificateKey_eq]
  obtain ⟨hadmin, hnone⟩ := not_or.mp hn
  rw [if_neg hadmin]
  cases hfind : T.find? fun x => s x "device_id" == signerId d with
  | some x =>
      have hid : s x "device_id" = signerId d := by simpa using List.find?_some hfind
      have hx := List.mem_of_find?_eq_some hfind
      have hgen : n x "generation" ≠ n d "generation" := fun hgen =>
        hnone ⟨x, .inl ⟨hx, hid⟩, hgen⟩
      refine .inr ⟨⟨err .importConflict, if_neg hgen⟩, not_or.mpr ⟨hadmin, ?_⟩⟩
      rintro ⟨y, hy, hgen'⟩
      have hnames : w.cell.store.Names ds (signerId d) y := hy
      obtain rfl := hnames.unique ha hd (.inl ⟨h.listed x hx, hid⟩)
      exact hgen hgen'
  | none =>
      refine .inl ?_
      cases hstored : w.cell.store.object .device (signerId d) with
      | none => rfl
      | some x =>
          have hgen : n x "generation" ≠ n d "generation" := fun hgen =>
            hnone ⟨x, .inr hstored, hgen⟩
          dsimp only
          rw [Option.filter_some, if_neg (by simpa using hgen), Option.map_none]

omit ha hd in
theorem takenRow_of_ne {q : Kind × String} (hq : q ≠ (.device, s d "device_id")) :
    takenRow X (d :: T) q = takenRow X T q := by
  unfold takenRow
  split
  · rename_i hk
    rw [List.find?_cons_of_neg]
    rw [beq_iff_eq]
    exact fun he => hq (Prod.ext hk he.symm)
  · rfl

omit ha hd in
theorem takenRow_self :
    takenRow X (d :: T) (.device, s d "device_id") = some (newRow X .device d none) := by
  rw [takenRow, if_pos rfl, List.find?_cons_of_pos (by simp)]
  rfl

omit ha hd in
/-- A stored device is the one that has its hash. -/
theorem Took.found (h : Took X w ds T r) (he : w.cell.store.Embodied X) {o : ObjectRow}
    {id : String} (hrow : r.1.cell.store.objects.find? (.device, id) = some o) :
    ∃ x, w.cell.store.Names ds id x ∧ o.objectHash = X.objectHash x := by
  obtain ⟨tab, hst, hfind⟩ := h.stages
  rw [hst, hfind] at hrow
  cases hold : w.cell.store.objects.find? (.device, id) with
  | some o' =>
      rw [hold, Option.some_or] at hrow
      obtain rfl := Option.some.inj hrow
      obtain ⟨b, hb, hhash⟩ := he _ _ hold
      exact ⟨b, .inr (by rw [Store.object, hold]; exact hb), hhash⟩
  | none =>
      rw [hold, Option.none_or, takenRow, if_pos rfl] at hrow
      obtain ⟨x, hx, rfl⟩ := Option.map_eq_some_iff.mp hrow
      have hid : s x "device_id" = id := by simpa using List.find?_some hx
      exact ⟨x, .inl ⟨h.listed x (List.mem_of_find?_eq_some hx), hid⟩, rfl⟩

/-- The stored rows when one more device is taken, whose row is `o`. -/
theorem Took.stages_cons (h : Took X w ds T r) (hmem : d ∈ ds) {o : ObjectRow}
    {tab' : Table ObjectRow ObjectRow.key}
    (hother : ∀ q, q ≠ (.device, s d "device_id") →
      tab'.find? q = r.1.cell.store.objects.find? q)
    (hself : tab'.find? (.device, s d "device_id") = some o)
    (hnew : r.1.cell.store.objects.find? (.device, s d "device_id") = some o ∨
      r.1.cell.store.objects.find? (.device, s d "device_id") = none ∧
        o = newRow X .device d none) :
    w.cell.store.Stages X (d :: T) { w.cell.store with objects := tab' } := by
  obtain ⟨tab, hst, hfind⟩ := h.stages
  have hobjects : r.1.cell.store.objects = tab := by rw [hst]
  rw [hobjects] at hother hnew
  refine ⟨tab', rfl, fun q => ?_⟩
  by_cases hq : q = (.device, s d "device_id")
  · subst hq
    rw [hself, takenRow_self]
    obtain hrow | ⟨hrow, rfl⟩ := hnew
    · rw [hfind] at hrow
      cases hold : w.cell.store.objects.find? (.device, s d "device_id") with
      | some o' =>
          rw [hold, Option.some_or] at hrow
          rw [Option.some_or, hrow]
      | none =>
          rw [hold, Option.none_or, takenRow, if_pos rfl] at hrow
          obtain ⟨x, hx, rfl⟩ := Option.map_eq_some_iff.mp hrow
          have hid : s x "device_id" = s d "device_id" := by simpa using List.find?_some hx
          have hnames : w.cell.store.Names ds (s d "device_id") x :=
            .inl ⟨h.listed x (List.mem_of_find?_eq_some hx), hid⟩
          rw [hnames.unique ha hd (.inl ⟨hmem, rfl⟩), Option.none_or]
    · rw [hfind] at hrow
      rw [(Option.or_eq_none_iff.mp hrow).1, Option.none_or]
  · rw [hother q hq, hfind, takenRow_of_ne hq]

/-- A device that verifies is stored, unless it is there. -/
theorem Took.stage {key : String} (h : Took X w ds T r) (he : w.cell.store.Embodied X)
    (hmem : d ∈ ds) (hcert : verify X (d.get "enrollment") key .enrollment = .ok ())
    (hself : verify X d (s d "device_public_key") .deviceRecord = .ok ()) :
    ∃ t, stageDevice X key d r.1 = .ok ((), t) ∧
      Took X w ds (d :: T) (t, (s d "device_id", d) :: r.2) := by
  have hlisted : ∀ x ∈ d :: T, x ∈ ds := List.forall_mem_cons.mpr ⟨hmem, h.listed⟩
  have hverified : (s d "device_id", d) :: r.2 = (d :: T).map fun d => (s d "device_id", d) := by
    rw [h.verified, List.map_cons]
  have hput : ∀ {fresh t}, putObject X .device d none r.1 = .ok (fresh, t) →
      stageDevice X key d r.1 = .ok ((), t) := fun hput => by
    rw [stageDevice, hcert, hself]
    exact (bind_of_ok (t := r.1) (a := ()) rfl).trans
      ((bind_of_ok (t := r.1) (a := ()) rfl).trans (bind_of_ok hput))
  have hstore : r.1.cell.store = { w.cell.store with objects := r.1.cell.store.objects } := by
    obtain ⟨tab, hst, -⟩ := h.stages
    rw [hst]
  cases hrow : r.1.cell.store.objects.find? (.device, s d "device_id") with
  | some o =>
      obtain ⟨x, hx, hhash⟩ := h.found he hrow
      obtain rfl := hx.unique ha hd (.inl ⟨hmem, rfl⟩)
      refine ⟨r.1, hput (putObject_there hrow hhash), hlisted, hverified, h.cell, ?_⟩
      rw [hstore]
      exact h.stages_cons ha hd hmem (fun _ _ => rfl) hrow (.inl hrow)
  | none =>
      obtain ⟨tab, htab, hstored⟩ := putObject_free X d none hrow rfl
      refine ⟨_, hput hstored, hlisted, hverified, by rw [h.cell], ?_⟩
      dsimp only
      rw [hstore]
      exact h.stages_cons ha hd hmem (fun q hq => (Table.find?_insert? htab q).trans (if_neg hq))
        ((Table.find?_insert? htab _).trans (if_pos rfl)) (.inr ⟨hrow, rfl⟩)

/-- The devices of an import are gathered: whether one can be taken depends
only on which others were. -/
theorem resolve_gathers (he : w.cell.store.Embodied X) :
    Passes.Gathering (resolveOne X admin) ds w.cell.store.Needs
      (w.cell.store.Verifies X admin ds) (Took X w ds) where
  mono hsub hneeds := hneeds.imp_right fun ⟨x, hx, hgen⟩ =>
    ⟨x, hx.imp_left fun hx => ⟨hsub x hx.1, hx.2⟩, hgen⟩
  take {T r d} h hmem hneeds hgood := by
    obtain ⟨key, hkey, hsign⟩ := h.key ha hd hneeds
    obtain ⟨t, ht, htook⟩ := h.stage ha hd he hmem (hgood.1 key hsign) hgood.2
    refine ⟨_, ?_, htook⟩
    rw [resolveOne, hkey]
    dsimp only
    rw [ht]
  bad {T r d} h hmem hneeds hbad := by
    obtain ⟨key, hkey, hsign⟩ := h.key ha hd hneeds
    rw [resolveOne, hkey]
    dsimp only
    cases hd' : stageDevice X key d r.1 with
    | error e => exact ⟨e, rfl⟩
    | ok t =>
        obtain ⟨hcert, hself⟩ := stageDevice_verifies hd'
        exact absurd ⟨fun key' hkey' => hsign.unique ha hd hkey' ▸ hcert, hself⟩ hbad
  wait {T r d} h hmem hneeds := by
    rw [resolveOne]
    obtain hnone | ⟨⟨e, herr⟩, hnever⟩ := h.wait ha hd hneeds
    · rw [hnone]
      exact .inl rfl
    · rw [herr]
      exact .inr ⟨⟨e, rfl⟩, hnever⟩
  within h := h.listed

end Taking

/-! ## All devices -/

section Devices

variable {X : Crypto} {admin : String} {w w' : Work} {ds T : List Json} {fuel : Nat}

/-- No row is lost or replaced, and the device taken has its own. -/
theorem resolveOne_kept {d : Json} {r t : Intake}
    (h : resolveOne X admin d r = .ok (some t)) :
    (∀ q o, r.1.cell.store.objects.find? q = some o → t.1.cell.store.objects.find? q = some o) ∧
      ∃ o, t.1.cell.store.objects.find? (.device, s d "device_id") = some o ∧
        o.objectHash = X.objectHash d := by
  unfold resolveOne at h
  split at h
  · cases h
  · cases h
  · split at h
    · cases h
    · rename_i u hu
      obtain rfl := Option.some.inj (Except.ok.inj h)
      obtain ⟨_, w'⟩ := u
      simp only [stageDevice, bind_ok, lift_ok, pure_ok] at hu
      obtain ⟨_, _, ⟨-, rfl⟩, _, _, ⟨-, rfl⟩, _, _, hput, -, rfl⟩ := hu
      obtain ⟨-, rfl, o, ho, hhash⟩ | ⟨-, hfree, -, tab, htab, rfl⟩ := putObject_ok hput
      · exact ⟨fun _ _ h => h, o, ho, hhash⟩
      · refine ⟨fun q o ho => (htab q).trans ?_, _, (htab _).trans (if_pos rfl), rfl⟩
        rw [if_neg, ho]
        rintro rfl
        cases hfree.symm.trans ho

/-- Devices that were all taken agree with each other and with what was stored. -/
theorem Takes.agrees {r t : Intake} (h : Passes.Takes (resolveOne X admin) T r t)
    (he : r.1.cell.store.Embodied X) : r.1.cell.store.Agrees X T := by
  have hkept : (∀ q o, r.1.cell.store.objects.find? q = some o →
      t.1.cell.store.objects.find? q = some o) ∧
      ∀ d ∈ T, ∃ o, t.1.cell.store.objects.find? (.device, s d "device_id") = some o ∧
        o.objectHash = X.objectHash d := by
    clear he
    induction h with
    | nil => exact ⟨fun _ _ h => h, by simp⟩
    | cons hx _ ih =>
        obtain ⟨hrows, o, ho, hhash⟩ := resolveOne_kept hx
        exact ⟨fun q o h => ih.1 q o (hrows q o h),
          List.forall_mem_cons.mpr ⟨⟨o, ih.1 _ o ho, hhash⟩, ih.2⟩⟩
  have hnamed : ∀ id x, r.1.cell.store.Names T id x →
      ∃ o, t.1.cell.store.objects.find? (.device, id) = some o ∧ o.objectHash = X.objectHash x := by
    rintro id x (⟨hx, rfl⟩ | hx)
    · exact hkept.2 x hx
    · obtain ⟨o, ho, hb⟩ := object_eq_some.mp hx
      obtain ⟨b, hb', hhash⟩ := he id o ho
      obtain rfl := Option.some.inj (hb'.symm.trans hb)
      exact ⟨o, hkept.1 _ o ho, hhash⟩
  intro id x y hx hy
  obtain ⟨o, ho, hhash⟩ := hnamed id x hx
  obtain ⟨o', ho', hhash'⟩ := hnamed id y hy
  obtain rfl := Option.some.inj (ho.symm.trans ho')
  exact hhash.symm.trans hhash'

theorem Store.Agrees.perm {st : Store} {ds' : List Json} (h : st.Agrees X ds)
    (hperm : ds.Perm ds') : st.Agrees X ds' := fun id x y hx hy =>
  h id x y (hx.imp_left fun hx => ⟨hperm.mem_iff.mpr hx.1, hx.2⟩)
    (hy.imp_left fun hy => ⟨hperm.mem_iff.mpr hy.1, hy.2⟩)

theorem Store.Distinct.perm {st : Store} {ds' : List Json} (h : st.Distinct X ds)
    (hperm : ds.Perm ds') : st.Distinct X ds' := fun id id' x y hx hy =>
  h id id' x y (hx.imp_left fun hx => ⟨hperm.mem_iff.mpr hx.1, hx.2⟩)
    (hy.imp_left fun hy => ⟨hperm.mem_iff.mpr hy.1, hy.2⟩)

theorem Store.Certifies.perm {st : Store} {ds' : List Json} {d : Json}
    (h : st.Certifies X admin ds d) (hperm : ds.Perm ds') : st.Certifies X admin ds' d := by
  induction h with
  | admin hadmin hverify => exact .admin hadmin hverify
  | stored hadmin hx hgen hverify => exact .stored hadmin hx hgen hverify
  | listed hadmin hx hid hgen hverify _ ih =>
      exact .listed hadmin (hperm.mem_iff.mp hx) hid hgen hverify ih

/-- The rows do not depend on the order. -/
theorem takenRow_perm {st : Store} (ha : st.Agrees X ds) (hd : st.Distinct X ds)
    (hperm : T.Perm ds) (q : Kind × String) : takenRow X T q = takenRow X ds q := by
  unfold takenRow
  split
  · refine congrArg _ ?_
    cases hfind : T.find? fun d => s d "device_id" == q.2 with
    | none =>
        refine (List.find?_eq_none.mpr fun x hx => ?_).symm
        exact List.find?_eq_none.mp hfind x (hperm.mem_iff.mpr hx)
    | some x =>
        have hid : s x "device_id" = q.2 := by simpa using List.find?_some hfind
        have hx := hperm.mem_iff.mp (List.mem_of_find?_eq_some hfind)
        have hfound : ∃ y, ds.find? (fun d => s d "device_id" == q.2) = some y :=
          Option.isSome_iff_exists.mp (List.find?_isSome.mpr ⟨x, hx, by simp [hid]⟩)
        obtain ⟨y, hy⟩ := hfound
        have hid' : s y "device_id" = q.2 := by simpa using List.find?_some hy
        have hnames : st.Names ds q.2 y := .inl ⟨List.mem_of_find?_eq_some hy, hid'⟩
        rw [hy, hnames.unique ha hd (.inl ⟨hx, hid⟩)]
  · rfl

/-- The devices of an import are accepted if and only if they agree with each
other and with the stored ones, each verifies, and every certificate goes back
to the admin or to a stored device. -/
theorem resolveDevices_iff (admin : String) (he : w.cell.store.Embodied X)
    (hd : w.cell.store.Distinct X ds) :
    (∃ w', resolveDevices X admin ds.length ds [] w = .ok ((), w')) ↔
      w.cell.store.Agrees X ds ∧ ∀ d ∈ ds, w.cell.store.Certifies X admin ds d ∧
        verify X d (s d "device_public_key") .deviceRecord = .ok () := by
  have hnew : Took X w ds [] (w, []) := ⟨by simp, rfl, rfl, _, rfl, fun q => by simp [takenRow]⟩
  have hruns : (∃ w', resolveDevices X admin ds.length ds [] w = .ok ((), w')) ↔
      ∃ t, Passes.passes (resolveOne X admin) (err .enrollmentCertificateInvalid) ds.length ds
        (w, []) = .ok t := by
    rw [resolveDevices_eq]
    cases Passes.passes (resolveOne X admin) (err .enrollmentCertificateInvalid) ds.length ds
      (w, []) with
    | error e => simp [Except.map]
    | ok t => simp [Except.map]
  rw [hruns]
  constructor
  · rintro ⟨t, ht⟩
    obtain ⟨T, htakes, hperm⟩ := Passes.passes_takes ht
    have ha : w.cell.store.Agrees X ds := (Takes.agrees htakes he).perm hperm
    exact ⟨ha, (supported_iff ha hd).mp (((resolve_gathers ha hd he).passes_iff hnew).mp ⟨t, ht⟩)⟩
  · rintro ⟨ha, hall⟩
    exact ((resolve_gathers ha hd he).passes_iff hnew).mpr ((supported_iff ha hd).mpr hall)

/-- What is stored then: a row for each device that had none. -/
theorem resolveDevices_stages (he : w.cell.store.Embodied X) (hd : w.cell.store.Distinct X ds)
    (h : resolveDevices X admin fuel ds [] w = .ok ((), w')) :
    w' = { w with cell := { w.cell with store := w'.cell.store } } ∧
      w.cell.store.Stages X ds w'.cell.store := by
  have hnew : Took X w ds [] (w, []) := ⟨by simp, rfl, rfl, _, rfl, fun q => by simp [takenRow]⟩
  rw [resolveDevices_eq] at h
  cases hpasses : Passes.passes (resolveOne X admin) (err .enrollmentCertificateInvalid) fuel ds
      (w, []) with
  | error e => rw [hpasses] at h; cases h
  | ok t =>
      rw [hpasses] at h
      obtain ⟨-, rfl⟩ := Prod.mk.inj (Except.ok.inj h)
      obtain ⟨T, htakes, hperm⟩ := Passes.passes_takes hpasses
      have ha : w.cell.store.Agrees X ds := (Takes.agrees htakes he).perm hperm
      obtain ⟨T', hperm', htook⟩ := (resolve_gathers ha hd he).passes_holds hnew hpasses
      obtain ⟨tab, hst, hfind⟩ := htook.stages
      refine ⟨htook.cell, tab, hst, fun q => ?_⟩
      rw [hfind, takenRow_perm ha hd hperm']

end Devices

/-! ## In a run -/

section Runs

variable {X : Crypto} {admin : String} {st st' : Store} {w w' : Work} {ds : List Json}

/-- The same rows of devices. -/
def Store.SameDevices (st st' : Store) : Prop :=
  ∀ id, st'.objects.find? (.device, id) = st.objects.find? (.device, id)

theorem Store.SameDevices.object (h : st.SameDevices st') (id : String) :
    st'.object .device id = st.object .device id := by
  rw [Store.object, Store.object, h]

theorem Store.SameDevices.names (h : st.SameDevices st') {id : String} {x : Json} :
    st'.Names ds id x ↔ st.Names ds id x := by
  rw [Store.Names, Store.Names, h.object]

theorem Store.Embodied.same (he : st.Embodied X) (h : st.SameDevices st') : st'.Embodied X :=
  fun id o ho => he id o ((h id).symm.trans ho)

theorem Store.Distinct.same (hd : st.Distinct X ds) (h : st.SameDevices st') :
    st'.Distinct X ds :=
  fun id id' x y hx hy => hd id id' x y (h.names.mp hx) (h.names.mp hy)

theorem Store.Agrees.same (h : st.SameDevices st') : st'.Agrees X ds ↔ st.Agrees X ds := by
  simp only [Store.Agrees, h.names]

theorem Store.Certifies.same (h : st.SameDevices st') {d : Json} :
    st'.Certifies X admin ds d ↔ st.Certifies X admin ds d := by
  constructor <;> intro hc
  · induction hc with
    | admin hadmin hverify => exact .admin hadmin hverify
    | stored hadmin hx hgen hverify =>
        exact .stored hadmin ((h.object _).symm.trans hx) hgen hverify
    | listed hadmin hx hid hgen hverify _ ih => exact .listed hadmin hx hid hgen hverify ih
  · induction hc with
    | admin hadmin hverify => exact .admin hadmin hverify
    | stored hadmin hx hgen hverify => exact .stored hadmin ((h.object _).trans hx) hgen hverify
    | listed hadmin hx hid hgen hverify _ ih => exact .listed hadmin hx hid hgen hverify ih

/-- The parameters of an import are stored before its devices. -/
theorem stageParameters_sameDevices {ps : List Json}
    (h : each (stageParameters X admin) ps w = .ok ((), w')) :
    w.cell.store.SameDevices w'.cell.store := by
  induction ps generalizing w with
  | nil =>
      rw [each_nil_ok] at h
      exact h ▸ fun _ => rfl
  | cons p ps ih =>
      obtain ⟨w₁, hp, hps⟩ := each_cons_ok.mp h
      refine fun id => (ih hps id).trans ?_
      simp only [stageParameters, bind_ok, failIf_ok, lift_ok, look_ok, pure_ok] at hp
      obtain ⟨_, _, ⟨-, rfl⟩, _, _, ⟨-, rfl⟩, _, _, ⟨-, rfl⟩, _, _, ⟨-, rfl⟩, _, _, hput, -, rfl⟩ :=
        hp
      obtain ⟨-, rfl, -⟩ | ⟨-, -, -, tab, htab, rfl⟩ := putObject_ok hput
      · rfl
      · exact (htab _).trans (if_neg (by simp))

/-- What is stored of a kind that is not removed has its body, under its hash
and identifier. -/
theorem store_body (X : Crypto) (cfg : RelayConfig) (es : List Event) (id : String)
    (hdel : (storeAfter X cfg es id).deletion = none) {kind : Kind} (hkind : ¬kind.removable)
    {q : String} {o : ObjectRow}
    (ho : (storeAfter X cfg es id).objects.find? (kind, q) = some o) :
    ∃ b, o.body = some b ∧ o.objectHash = X.objectHash b ∧ objectId b kind = q := by
  have hholds := store_settled X cfg es id hdel
  split at hholds
  · cases ((hholds.objects _).symm.trans ho)
  · rename_i c _
    have hok := hholds.sound.objects o (Table.mem_of_find? ho)
    obtain ⟨hk, hid⟩ := Prod.mk.inj (Table.key_of_find? ho : o.key = (kind, q))
    cases hbody : o.body with
    | none => exact absurd (hk ▸ hok.removed hbody) hkind
    | some b =>
        obtain ⟨hhash, hobject⟩ := hok.body b hbody
        rw [hk, hid] at hobject
        exact ⟨b, rfl, hhash.symm, hobject⟩

theorem store_embodied (X : Crypto) (cfg : RelayConfig) (es : List Event) (id : String)
    (hdel : (storeAfter X cfg es id).deletion = none) : (storeAfter X cfg es id).Embodied X :=
  fun q o ho => by
    obtain ⟨b, hb, hhash, -⟩ := store_body X cfg es id hdel (by simp [Kind.removable]) ho
    exact ⟨b, hb, hhash⟩

end Runs

section Again

variable {X : Crypto} {admin : String} {st st' : Store} {ds : List Json}

theorem Store.Stages.kept (h : st.Stages X ds st') {id : String} {x : Json}
    (hx : st.object .device id = some x) : st'.object .device id = some x := by
  obtain ⟨tab, rfl, hfind⟩ := h
  obtain ⟨o, ho, hb⟩ := object_eq_some.mp hx
  exact object_eq_some.mpr ⟨o, (hfind _).trans (by rw [ho, Option.some_or]), hb⟩

theorem Store.Stages.names (h : st.Stages X ds st') {id : String} {x : Json} :
    st'.Names ds id x ↔ st.Names ds id x := by
  refine ⟨fun hx => ?_, fun hx => hx.imp_right h.kept⟩
  obtain hx | hx := hx
  · exact .inl hx
  · obtain ⟨tab, rfl, hfind⟩ := h
    obtain ⟨o, ho, hb⟩ := object_eq_some.mp hx
    rw [hfind] at ho
    cases hold : st.objects.find? (.device, id) with
    | some o' =>
        rw [hold, Option.some_or] at ho
        obtain rfl := Option.some.inj ho
        exact .inr (object_eq_some.mpr ⟨o', hold, hb⟩)
    | none =>
        rw [hold, Option.none_or, takenRow, if_pos rfl] at ho
        obtain ⟨y, hy, rfl⟩ := Option.map_eq_some_iff.mp ho
        obtain rfl := Option.some.inj hb
        exact .inl ⟨List.mem_of_find?_eq_some hy, by simpa using List.find?_some hy⟩

/-- Devices that are there are not stored again. -/
theorem Takes.still {T : List Json} {r t : Intake} (h : Passes.Takes (resolveOne X admin) T r t)
    (hrows : ∀ d ∈ T, (r.1.cell.store.objects.find? (.device, s d "device_id")).isSome) :
    t.1 = r.1 := by
  induction h with
  | nil => rfl
  | @cons d T r u t hd _ ih =>
      obtain ⟨hrow, hrest⟩ := List.forall_mem_cons.mp hrows
      have hsame : u.1 = r.1 := by
        unfold resolveOne at hd
        split at hd
        · cases hd
        · cases hd
        · split at hd
          · cases hd
          · rename_i p hp
            obtain rfl := Option.some.inj (Except.ok.inj hd)
            obtain ⟨_, w'⟩ := p
            simp only [stageDevice, bind_ok, lift_ok, pure_ok] at hp
            obtain ⟨_, _, ⟨-, rfl⟩, _, _, ⟨-, rfl⟩, _, _, hput, -, rfl⟩ := hp
            obtain ⟨-, rfl, -⟩ | ⟨-, hfree, -⟩ := putObject_ok hput
            · rfl
            · rw [Option.isSome_iff_ne_none] at hrow
              exact absurd hfree hrow
      rw [← hsame] at hrest ⊢
      exact ih hrest

/-- Stored devices are accepted again, and nothing more is stored. -/
theorem resolveDevices_again {w w' u : Work} (he : w.cell.store.Embodied X)
    (hd : w.cell.store.Distinct X ds)
    (h : resolveDevices X admin ds.length ds [] w = .ok ((), w'))
    (hu : w'.cell.store.SameDevices u.cell.store) :
    resolveDevices X admin ds.length ds [] u = .ok ((), u) := by
  obtain ⟨ha, hall⟩ := (resolveDevices_iff _ he hd).mp ⟨w', h⟩
  have hstages := (resolveDevices_stages he hd h).2
  have he' : w'.cell.store.Embodied X := by
    obtain ⟨tab, hst, hfind⟩ := hstages
    intro id o ho
    rw [hst] at ho
    rw [show ({ w.cell.store with objects := tab } : Store).objects.find? (.device, id) =
      tab.find? (.device, id) from rfl, hfind, takenRow, if_pos rfl] at ho
    obtain ho | ⟨-, ho⟩ := Option.or_eq_some_iff.mp ho
    · exact he id o ho
    · obtain ⟨x, -, rfl⟩ := Option.map_eq_some_iff.mp ho
      exact ⟨x, rfl, rfl⟩
  have hd' : w'.cell.store.Distinct X ds := fun id id' x y hx hy =>
    hd id id' x y (hstages.names.mp hx) (hstages.names.mp hy)
  have ha' : w'.cell.store.Agrees X ds := fun id x y hx hy =>
    ha id x y (hstages.names.mp hx) (hstages.names.mp hy)
  have hcert : ∀ d, w.cell.store.Certifies X admin ds d → w'.cell.store.Certifies X admin ds d := by
    intro d hc
    induction hc with
    | admin hadmin hverify => exact .admin hadmin hverify
    | stored hadmin hx hgen hverify => exact .stored hadmin (hstages.kept hx) hgen hverify
    | listed hadmin hx hid hgen hverify _ ih => exact .listed hadmin hx hid hgen hverify ih
  have hrows : ∀ d ∈ ds, (u.cell.store.objects.find? (.device, s d "device_id")).isSome := by
    intro d hmem
    obtain ⟨tab, hst, hfind⟩ := hstages
    have htaken : (takenRow X ds (.device, s d "device_id")).isSome := by
      rw [takenRow, if_pos rfl, Option.isSome_map]
      exact List.find?_isSome.mpr ⟨d, hmem, by simp⟩
    rw [hu, hst]
    show (tab.find? _).isSome
    rw [hfind, Option.isSome_or, htaken, Bool.or_true]
  obtain ⟨u', hagain⟩ := (resolveDevices_iff admin (he'.same hu) (hd'.same hu)).mpr
    ⟨(Store.Agrees.same hu).mpr ha',
      fun d hd => (hall d hd).imp_left fun hc => (Store.Certifies.same hu).mpr (hcert d hc)⟩
  have hpasses := hagain
  rw [resolveDevices_eq] at hpasses
  cases hrun : Passes.passes (resolveOne X admin) (err .enrollmentCertificateInvalid) ds.length ds
      (u, []) with
  | error e =>
      rw [hrun] at hpasses
      cases hpasses
  | ok t =>
      rw [hrun] at hpasses
      obtain ⟨-, rfl⟩ := Prod.mk.inj (Except.ok.inj hpasses)
      obtain ⟨T, htakes, hperm⟩ := Passes.passes_takes hrun
      have hsame : t.1 = u := Takes.still htakes fun d hd => hrows d (hperm.mem_iff.mp hd)
      rw [hagain, hsame]

end Again

/-- Bodies with different hashes are distinct. -/
theorem Store.mem_bodies {st : Store} {kind : Kind} {id : String} {x : Json}
    (h : st.object kind id = some x) : x ∈ st.bodies kind := by
  obtain ⟨o, ho, hbody⟩ := object_eq_some.mp h
  have hkey : o.key = (kind, id) := Table.key_of_find? ho
  have hkind : o.kind = kind := congrArg Prod.fst hkey
  exact List.mem_filterMap.mpr ⟨o, Table.mem_of_find? ho, by rw [if_pos hkind, hbody]⟩

theorem distinct_of_bodies {X : Crypto} {st : Store} {ds : List Json}
    (h : ((ds ++ st.bodies .device).map X.objectHash).Nodup) : st.Distinct X ds := by
  have hmem : ∀ id x, st.Names ds id x → x ∈ ds ++ st.bodies .device := by
    rintro id x (⟨hx, -⟩ | hx)
    · exact List.mem_append_left _ hx
    · exact List.mem_append_right _ (Store.mem_bodies hx)
  exact fun id id' x y hx hy heq => List.inj_on_of_nodup_map h (hmem _ _ hx) (hmem _ _ hy) heq

/-- The devices of an import into a chain, once its parameters `ps` are stored:
they are accepted, in whatever order they stand, if and only if they agree with
each other and with the stored devices, each verifies, and every certificate
goes back over signers of one generation to the admin or to a device that was
stored before. Then exactly the missing ones were stored, and they are accepted
again. -/
theorem import_resolution (X : Crypto) (cfg : RelayConfig) (es : List Event) (id : String)
    (hdel : (storeAfter X cfg es id).deletion = none) (admin : String) (ps ds : List Json)
    (hdistinct : (storeAfter X cfg es id).Distinct X ds) {w₀ w : Work}
    (hw : w₀.cell.store = storeAfter X cfg es id)
    (hps : each (stageParameters X admin) ps w₀ = .ok ((), w)) :
    ((∃ w', resolveDevices X admin ds.length ds [] w = .ok ((), w')) ↔
      (storeAfter X cfg es id).Agrees X ds ∧
        ∀ d ∈ ds, (storeAfter X cfg es id).Certifies X admin ds d ∧
          verify X d (s d "device_public_key") .deviceRecord = .ok ()) ∧
    ∀ w', resolveDevices X admin ds.length ds [] w = .ok ((), w') →
      w.cell.store.Stages X ds w'.cell.store ∧
      (∃ w'', resolveDevices X admin ds.length ds [] w' = .ok ((), w'') ∧
        ∀ q, w''.cell.store.objects.find? q = w'.cell.store.objects.find? q) ∧
      ∀ ds', ds.Perm ds' → ∃ w'', resolveDevices X admin ds'.length ds' [] w = .ok ((), w'') ∧
        w.cell.store.Stages X ds w''.cell.store := by
  have hsame : (storeAfter X cfg es id).SameDevices w.cell.store :=
    hw ▸ stageParameters_sameDevices hps
  have he := (store_embodied X cfg es id hdel).same hsame
  have hd := hdistinct.same hsame
  have hiff := fun (ds' : List Json) (hd' : w.cell.store.Distinct X ds') =>
    resolveDevices_iff admin he hd'
  refine ⟨?_, fun w' hrun => ⟨(resolveDevices_stages he hd hrun).2,
    ⟨w', resolveDevices_again he hd hrun fun _ => rfl, fun _ => rfl⟩, fun ds' hperm => ?_⟩⟩
  · rw [hiff ds hd, Store.Agrees.same hsame]
    simp only [Store.Certifies.same hsame]
  · obtain ⟨ha, hall⟩ := (hiff ds hd).mp ⟨w', hrun⟩
    obtain ⟨w'', hrun'⟩ := (hiff ds' (hd.perm hperm)).mpr ⟨ha.perm hperm, fun d hd =>
      (hall d (hperm.mem_iff.mpr hd)).imp_left fun hc => hc.perm hperm⟩
    obtain ⟨-, tab, hst, hfind⟩ := resolveDevices_stages he (hd.perm hperm) hrun'
    refine ⟨w'', hrun', tab, hst, fun q => ?_⟩
    rw [hfind, takenRow_perm ha hd hperm.symm]

namespace Sample

/-- A device whose certificate the `j`-th one signed. -/
def vouched (k j : Nat) : Json :=
  (device k 0 0).set "enrollment" (((((device k 0 0).get "enrollment").set "request_hash"
    (hashOf (.num k))).set "signer_kind" (.str "device")).set "signer_device_id" (.str (uid j)))

/-- A device, and after it the one that signed its certificate. -/
def vouchedDevices : List Json := [vouched 3 2, device 2 0 0]

/-- An import is about to be made. -/
def imported : Work := ⟨⟨storeAfter crypto cfg genesisRun chainId, .unset⟩, oracle 1500 7, 0⟩

def vouchedResolved : Bool :=
  match each (stageParameters crypto adminKey) [parameters 0 .null] imported with
  | .error _ => false
  | .ok (_, w) =>
      match resolveDevices crypto adminKey 2 vouchedDevices [] w with
      | .error _ => false
      | .ok (_, w') => (w'.cell.store.object .device (uid 3)).isSome

theorem vouched_facts :
    ((storeAfter crypto cfg genesisRun chainId).deletion.isNone &&
      decide ((vouchedDevices ++ (storeAfter crypto cfg genesisRun chainId).bodies .device).map
        crypto.objectHash).Nodup && vouchedResolved) = true := by
  decide +kernel

end Sample

/-- The third device is accepted before the second one, which signed its
certificate, and after it. -/
theorem import_resolution_vouched : ∃ w w' w'' : Work,
    each (stageParameters Sample.crypto Sample.adminKey) [Sample.parameters 0 .null]
      Sample.imported = .ok ((), w) ∧
    resolveDevices Sample.crypto Sample.adminKey 2 [Sample.vouched 3 2, Sample.device 2 0 0] [] w =
      .ok ((), w') ∧
    resolveDevices Sample.crypto Sample.adminKey 2 [Sample.device 2 0 0, Sample.vouched 3 2] [] w =
      .ok ((), w'') ∧
    (w'.cell.store.object .device (Sample.uid 3)).isSome ∧
    (∃ w₃, resolveDevices Sample.crypto Sample.adminKey 2 Sample.vouchedDevices [] w' =
      .ok ((), w₃)) ∧
    (storeAfter Sample.crypto Sample.cfg Sample.genesisRun Sample.chainId).Certifies Sample.crypto
      Sample.adminKey Sample.vouchedDevices (Sample.vouched 3 2) := by
  have hstore : Sample.imported.cell.store =
      storeAfter Sample.crypto Sample.cfg Sample.genesisRun Sample.chainId := by
    rw [Sample.imported]
  have hfacts := Sample.vouched_facts
  simp only [Bool.and_eq_true, Option.isNone_iff_eq_none, decide_eq_true_eq] at hfacts
  obtain ⟨⟨hdel, hdistinct⟩, hrun⟩ := hfacts
  unfold Sample.vouchedResolved at hrun
  split at hrun
  · cases hrun
  rename_i u w hps
  split at hrun
  · cases hrun
  rename_i u' w' hds
  obtain ⟨hiff, hafter⟩ :=
    import_resolution Sample.crypto Sample.cfg Sample.genesisRun Sample.chainId
    hdel Sample.adminKey [Sample.parameters 0 .null] Sample.vouchedDevices
    (distinct_of_bodies hdistinct) hstore hps
  obtain ⟨-, ⟨w₃, hagain, -⟩, hperm⟩ := hafter w' hds
  obtain ⟨w'', hother, -⟩ := hperm [Sample.device 2 0 0, Sample.vouched 3 2] (.swap ..)
  exact ⟨w, w', w'', hps, hds, hother, hrun, ⟨w₃, hagain⟩,
    ((hiff.mp ⟨w', hds⟩).2 _ (List.mem_cons_self ..)).1⟩

end PallaSync
