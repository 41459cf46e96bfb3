import PallaSync.Checks
import PallaSync.Deletion
import PallaSync.Authenticate

/-!
# Recovery artifacts

A recovery artifact is an object of a reserved type, or one with both a
mnemonic and a passphrase. A value is public when none occurs in it. Every
object of a client is scanned before anything else about it is looked at, with
a stack of the values still to scan; what passes the scan is public, and so is
what the relay builds from public values, texts and numbers.
-/

namespace PallaSync

/-! ## Values inside values -/

/-- `v` occurs in a value, at any depth. An object is a map: what it holds is
what its names look up. -/
inductive Json.Within (v : Json) : Json → Prop where
  | self : Json.Within v v
  | item {x items} : x ∈ items → Json.Within v x → Json.Within v (.arr items)
  | member {k x members} : members.lookup k = some x → Json.Within v x →
      Json.Within v (.obj members)

/-- No recovery artifact occurs in the value. -/
def Json.Public (v : Json) : Prop :=
  ∀ members, Json.Within (.obj members) v → isLocalArtifact members = false

theorem mem_of_lookup {β : Type} {ms : List (String × β)} {k : String} {x : β}
    (h : ms.lookup k = some x) : (k, x) ∈ ms := by
  induction ms with
  | nil => cases h
  | cons m rest ih =>
      obtain ⟨k', y⟩ := m
      rw [List.lookup_cons] at h
      split at h
      · rename_i hk
        obtain rfl := eq_of_beq hk
        obtain rfl := Option.some.inj h
        exact List.mem_cons_self
      · exact List.mem_cons_of_mem _ (ih h)

theorem public_arr {items : List Json} : (Json.arr items).Public ↔ ∀ x ∈ items, x.Public := by
  refine ⟨fun h x hx ms hms => h ms (.item hx hms), fun h ms hms => ?_⟩
  cases hms with
  | item hx hms => exact h _ hx ms hms

theorem public_obj {members : List (String × Json)} :
    (Json.obj members).Public ↔
      isLocalArtifact members = false ∧ ∀ k x, members.lookup k = some x → x.Public := by
  refine ⟨fun h => ⟨h members .self, fun k x hx ms hms => h ms (.member hx hms)⟩,
    fun ⟨hself, h⟩ ms hms => ?_⟩
  cases hms with
  | self => exact hself
  | member hx hms => exact h _ _ hx ms hms

/-! ## The scan -/

theorem anyArtifact_eq (items : List Json) : anyArtifact items = items.any hasLocalArtifact := by
  induction items with
  | nil => rfl
  | cons x xs ih => rw [anyArtifact, ih, List.any_cons]

theorem anyMemberArtifact_eq (members : List (String × Json)) :
    anyMemberArtifact members = anyArtifact (members.map (·.2)) := by
  induction members with
  | nil => rfl
  | cons m ms ih => rw [anyMemberArtifact, ih, List.map_cons, anyArtifact]

/-- The scan looks at every value inside. -/
theorem public_of_scan {v : Json} (h : hasLocalArtifact v = false) : v.Public := by
  intro members hms
  induction hms with
  | self => exact (Bool.or_eq_false_iff.mp h).1
  | item hx _ ih =>
      rw [hasLocalArtifact, anyArtifact_eq, List.any_eq_false] at h
      exact ih (Bool.eq_false_iff.mpr (h _ hx))
  | member hx _ ih =>
      rw [hasLocalArtifact, anyMemberArtifact_eq, anyArtifact_eq, Bool.or_eq_false_iff,
        List.any_eq_false] at h
      exact ih (Bool.eq_false_iff.mpr
        (h.2 _ (List.mem_map_of_mem (f := Prod.snd) (mem_of_lookup hx))))

/-- The values of an object. -/
def values (members : List (String × Json)) : List Json := members.map (·.2)

/-- `pending.extend(items)`, for a stack listed from its top. -/
def extend (items pending : List Json) : List Json := items.reverse ++ pending

/-- The size of what is left to scan. -/
noncomputable def pendingSize : List Json → Nat
  | [] => 0
  | v :: pending => sizeOf v + pendingSize pending

theorem pendingSize_append (xs ys : List Json) :
    pendingSize (xs ++ ys) = pendingSize xs + pendingSize ys := by
  induction xs with
  | nil => simp [pendingSize]
  | cons x xs ih => simp [pendingSize, ih, Nat.add_assoc]

theorem pendingSize_extend (items pending : List Json) :
    pendingSize (extend items pending) = pendingSize items + pendingSize pending := by
  rw [extend, pendingSize_append]
  congr 1
  induction items with
  | nil => rfl
  | cons x xs ih =>
      rw [List.reverse_cons, pendingSize_append, ih]
      simp [pendingSize, Nat.add_comm]

theorem pendingSize_items (items : List Json) : pendingSize items < sizeOf (Json.arr items) := by
  induction items with
  | nil => simp [pendingSize]
  | cons x xs ih =>
      simp only [pendingSize, Json.arr.sizeOf_spec, List.cons.sizeOf_spec] at ih ⊢
      omega

theorem pendingSize_values (members : List (String × Json)) :
    pendingSize (values members) < sizeOf (Json.obj members) := by
  induction members with
  | nil => simp [pendingSize, values]
  | cons m ms ih =>
      obtain ⟨k, x⟩ := m
      simp only [values, List.map_cons, pendingSize, Json.obj.sizeOf_spec, List.cons.sizeOf_spec,
        Prod.mk.sizeOf_spec] at ih ⊢
      omega

/-- The loop of `reject_local_artifacts`, on its stack. -/
def rejectPending : List Json → Except ApiError Unit
  | [] => .ok ()
  | .obj members :: pending =>
      if isLocalArtifact members then .error (err .invalidField)
      else rejectPending (extend (values members) pending)
  | .arr items :: pending => rejectPending (extend items pending)
  | .null :: pending | .bool _ :: pending | .num _ :: pending | .str _ :: pending =>
      rejectPending pending
termination_by pending => pendingSize pending
decreasing_by
  · rw [pendingSize_extend, pendingSize]
    exact Nat.add_lt_add_right (pendingSize_values members) _
  · rw [pendingSize_extend, pendingSize]
    exact Nat.add_lt_add_right (pendingSize_items items) _
  all_goals
    simp [pendingSize]

theorem any_extend (items pending : List Json) :
    (extend items pending).any hasLocalArtifact =
      (anyArtifact items || pending.any hasLocalArtifact) := by
  rw [extend, List.any_append, List.any_reverse, anyArtifact_eq]

theorem rejectPending_eq (pending : List Json) :
    rejectPending pending =
      Check.failIf (pending.any hasLocalArtifact) (err .invalidField) := by
  induction pending using rejectPending.induct with
  | case1 => rw [rejectPending]; rfl
  | case2 members pending h =>
      rw [rejectPending, if_pos h, List.any_cons, hasLocalArtifact, h]
      rfl
  | case3 members pending h ih =>
      rw [rejectPending, if_neg h, ih, any_extend, List.any_cons, hasLocalArtifact,
        Bool.eq_false_iff.mpr h, Bool.false_or, anyMemberArtifact_eq]
      rfl
  | case4 items pending ih =>
      rw [rejectPending, ih, any_extend, List.any_cons, hasLocalArtifact]
  | case5 pending ih | case6 _ pending ih | case7 _ pending ih | case8 _ pending ih =>
      rw [rejectPending, ih, List.any_cons, hasLocalArtifact, Bool.false_or] <;> simp

/-- The stack finds what the recursion finds. -/
theorem rejectLocalArtifacts_pending (v : Json) :
    rejectLocalArtifacts v = rejectPending [v] := by
  rw [rejectPending_eq, List.any_cons, List.any_nil, Bool.or_false]
  rfl

/-! ## Public values -/

@[simp] theorem public_null : Json.null.Public := fun _ h => by cases h

@[simp] theorem public_bool (b : Bool) : (Json.bool b).Public := fun _ h => by cases h

@[simp] theorem public_num (k : Nat) : (Json.num k).Public := fun _ h => by cases h

@[simp] theorem public_str (text : String) : (Json.str text).Public := fun _ h => by cases h

@[simp] theorem public_ofOption (x : Option String) : (Json.ofOption x).Public := by
  cases x with
  | none => exact public_null
  | some text => exact public_str text

@[simp] theorem public_ofOptionNat (x : Option Nat) : (Json.ofOptionNat x).Public := by
  cases x with
  | none => exact public_null
  | some k => exact public_num k

/-- An object the relay builds. -/
theorem public_members {members : List (String × Json)} (hself : isLocalArtifact members = false)
    (h : ∀ m ∈ members, m.2.Public) : (Json.obj members).Public :=
  public_obj.mpr ⟨hself, fun k _ hx => h (k, _) (mem_of_lookup hx)⟩

section Parts

variable {v x : Json}

theorem Json.Public.get (h : v.Public) (key : String) : (v.get key).Public := by
  cases v with
  | obj members =>
      rw [Json.get]
      cases hx : members.lookup key with
      | none => exact public_null
      | some x => exact (public_obj.mp h).2 key x hx
  | null | bool _ | num _ | str _ | arr _ => exact public_null

theorem Json.Public.set (h : v.Public) (hx : x.Public) {key : String}
    (hkey : key ∉ ["type", "mnemonic", "passphrase"]) : (v.set key x).Public := by
  cases v with
  | obj members =>
      obtain ⟨hself, hmembers⟩ := public_obj.mp h
      have hne : ∀ name ∈ ["type", "mnemonic", "passphrase"],
          (Json.setMember key x members).lookup name = members.lookup name := fun name hname => by
        rw [Json.lookup_setMember, if_neg]
        rintro rfl
        exact hkey hname
      refine public_obj.mpr ⟨?_, fun k y hy => ?_⟩
      · rw [← hself, isLocalArtifact, isLocalArtifact, hne _ (by simp), hne _ (by simp),
          hne _ (by simp)]
      · rw [Json.lookup_setMember] at hy
        split at hy
        · exact Option.some.inj hy ▸ hx
        · exact hmembers k y hy
  | null | bool _ | num _ | str _ | arr _ => exact h

end Parts

/-! ## Checked values -/

/-- The types of texts, numbers and flags. -/
def FieldType.plain : FieldType → Bool
  | .object | .array | .listOf _ => false
  | .nullable t => t.plain
  | _ => true

section Checks

variable {X : Crypto} {v : Json}

theorem checkType_public {t : FieldType} (ht : t.plain = true) (h : checkType X t v = true) :
    v.Public := by
  induction t with
  | object | array | listOf _ => cases ht
  | nullable t ih =>
      obtain hnull | h := (Bool.or_eq_true _ _).mp h
      · cases v with
        | null => exact public_null
        | bool _ | num _ | str _ | arr _ | obj _ => cases hnull
      · exact ih ht h
  | string | uuid | u32 | int | bool | version | bytes _ | oneOf _ =>
      cases v with
      | null => exact public_null
      | bool _ => exact public_bool _
      | num _ => exact public_num _
      | str _ => exact public_str _
      | arr _ | obj _ => cases h

theorem fields_public {required optional : FieldTable} {f : String × FieldType}
    (h : fields X v required optional = .ok ()) (hf : f ∈ required) (hplain : f.2.plain = true) :
    (v.get f.1).Public := checkType_public hplain (fields_checked h hf)

theorem signed_public {required : FieldTable} {u : Unit} (h : signed X v required = .ok u) :
    v.Public := by
  simp only [signed, Check.bind_ok] at h
  obtain ⟨_, hscan, -⟩ := h
  exact public_of_scan (Check.failIf_ok.mp hscan)

theorem validate_public {schema : Schema} {u : Unit} (h : validate X v schema = .ok u) :
    v.Public := by
  cases schema with
  | admin => exact signed_public h
  | parameters | certificate | device | epoch | envelope | record | compaction | request =>
      obtain ⟨_, h, -⟩ := Check.bind_ok.mp h
      exact signed_public h

theorem tokenShape_public {u : Unit} (h : tokenShape X v = .ok u) : v.Public := by
  obtain ⟨_, h, -⟩ := Check.bind_ok.mp h
  exact signed_public (Check.orElse_ok.mp h)

/-- The body of a deletion that a device asks for. -/
theorem deleteRequest_public (h : fields X v deleteFields = .ok ())
    (hop : (v.get "admin_operation").isNull = true) : v.Public := by
  cases v with
  | obj members =>
      have hlookup : ∀ k x, members.lookup k = some x →
          ∃ t, deleteFields.lookup k = some t ∧ checkType X t x = true := fun k x hx => by
        simp only [fields, Check.bind_ok, Check.failIf_ok, Bool.not_eq_false', List.all_eq_true,
          List.append_nil] at h
        obtain ⟨_, -, h⟩ := h
        exact (Option.any_eq_true _ _).mp (h _ (mem_of_lookup hx))
      have habsent : ∀ k, deleteFields.lookup k = none → members.lookup k = none := fun k hk => by
        cases hx : members.lookup k with
        | none => rfl
        | some x =>
            obtain ⟨t, ht, -⟩ := hlookup k x hx
            rw [hk] at ht
            cases ht
      refine public_obj.mpr ⟨?_, fun k x hx => ?_⟩
      · rw [isLocalArtifact, habsent "type" rfl, habsent "mnemonic" rfl]
        rfl
      · obtain ⟨t, ht, hcheck⟩ := hlookup k x hx
        by_cases hk : k = "admin_operation"
        · subst hk
          rw [Json.get, hx, Option.getD_some] at hop
          cases x with
          | null => exact public_null
          | bool _ | num _ | str _ | arr _ | obj _ => cases hop
        · refine checkType_public ?_ hcheck
          have hmem := mem_of_lookup ht
          simp only [deleteFields, List.mem_cons, List.not_mem_nil, or_false,
            Prod.mk.injEq] at hmem
          obtain ⟨-, rfl⟩ | ⟨-, rfl⟩ | ⟨-, rfl⟩ | ⟨rfl, -⟩ := hmem
          · rfl
          · rfl
          · rfl
          · exact absurd rfl hk
  | null | bool _ | num _ | str _ | arr _ => cases h

/-! Whole requests. -/

theorem adminOperation_public {st : Store} {c : Chain} {action : String} {goal : Json} {u : Unit}
    (h : adminOperation X st c v action goal = .ok u) : v.Public := by
  obtain ⟨_, hv, -⟩ := Check.bind_ok.mp h
  exact validate_public hv

theorem bundleEnvelopes_public {st : Store} {c : Chain} {epoch : Json} {staged es : List Json}
    {members ids recipients : List String} {recovery x : Bool}
    (h : bundleEnvelopes X st c epoch staged members es ids recipients recovery = .ok x) :
    ∀ e ∈ es, e.Public := by
  induction es generalizing ids recipients recovery with
  | nil => exact fun e he => absurd he List.not_mem_nil
  | cons e es ih =>
      simp only [bundleEnvelopes, Check.bind_ok] at h
      obtain ⟨_, he, _, -, h⟩ := h
      refine List.forall_mem_cons.mpr ⟨validate_public (envelope_ok he).valid, ?_⟩
      obtain ⟨-, h⟩ | ⟨-, h⟩ := Check.ite_ok.mp h
      · obtain ⟨_, -, h⟩ := Check.bind_ok.mp h
        exact ih h
      · obtain ⟨_, -, h⟩ := Check.bind_ok.mp h
        exact ih h

theorem BundleOk.public {st : Store} {c : Chain} {epoch : Json} {envelopes staged : List Json}
    {genesis reseed : Bool} (h : BundleOk X st c epoch envelopes staged genesis reseed) :
    epoch.Public ∧ ∀ e ∈ envelopes, e.Public := by
  obtain ⟨members, -, -, -, henv⟩ := h.members
  exact ⟨validate_public h.valid, bundleEnvelopes_public henv⟩

theorem enrollmentEnvelopes_public {st : Store} {c : Chain} {d : Json} {es : List Json}
    {ids : List String} {current x : Bool}
    (h : enrollmentEnvelopes X st c d es ids current = .ok x) : ∀ e ∈ es, e.Public := by
  induction es generalizing ids current with
  | nil => exact fun e he => absurd he List.not_mem_nil
  | cons e es ih =>
      simp only [enrollmentEnvelopes, enrollmentEnvelope, Check.bind_ok] at h
      obtain ⟨_, -, _, ⟨_, -, _, he, -⟩, h⟩ := h
      exact List.forall_mem_cons.mpr ⟨validate_public (envelope_ok he).valid, ih h⟩

theorem isNull_public (h : v.isNull = true) : v.Public := by
  cases v with
  | null => exact public_null
  | bool _ | num _ | str _ | arr _ | obj _ => cases h

/-- The admin's operation of an enrollment, if there is one. -/
theorem enrollCheck_public {R : Relay} {st : Store} {c : Chain} {auth : Auth}
    {request : Option Json} {u : Unit} (h : enrollCheck R st c auth v request = .ok u) :
    auth.admin = true → (v.get "admin_operation").Public := by
  intro hadmin
  simp only [enrollCheck, enrollmentAuthority, hadmin, if_true, Check.bind_ok] at h
  obtain ⟨_, -, _, -, _, -, _, -, _, -, _, hop, -⟩ := h
  exact adminOperation_public hop

theorem epochCheck_public {R : Relay} {st : Store} {c : Chain} {auth : Auth}
    {device : Option String} {u : Unit} (h : epochCheck R st c auth v device = .ok u) :
    (v.get "admin_operation").Public := by
  simp only [epochCheck, epochAuthority, Check.bind_ok] at h
  obtain ⟨_, -, _, -, _, -, _, -, _, -, _, hop, -⟩ := h
  obtain ⟨-, hop⟩ | ⟨-, hop⟩ := Check.ite_ok.mp hop
  · exact adminOperation_public hop
  · exact isNull_public (by simpa using hop)

theorem pruneCheck_public {st : Store} {c : Chain} {comp : Json}
    (h : pruneCheck X st c v = .ok comp) : (v.get "admin_operation").Public := by
  simp only [pruneCheck, Check.bind_ok] at h
  obtain ⟨_, hop, -⟩ := h
  exact adminOperation_public hop

theorem reseedCheck_public {R : Relay} {st : Store} {c : Chain} {imported : Import}
    (h : reseedCheck R st c v = .ok imported) : (v.get "admin_operation").Public := by
  simp only [reseedCheck, Check.bind_ok] at h
  obtain ⟨_, hop, -⟩ := h
  exact adminOperation_public hop

theorem reseedCompactionCheck_public {st : Store} {c : Chain} {u : Unit}
    (h : reseedCompactionCheck X st c v = .ok u) : (v.get "compaction").Public := by
  simp only [reseedCompactionCheck, Check.bind_ok] at h
  obtain ⟨_, -, h⟩ := h
  exact validate_public (compaction_ok h).valid

theorem deleteAuthority_public {st : Store} {c : Chain} {auth : Auth} {authority : String}
    (h : deleteAuthority X st c auth v = .ok authority) :
    (v.get "admin_operation").Public ∧
      (auth.admin = false → (v.get "admin_operation").isNull = true) := by
  simp only [deleteAuthority, Check.bind_ok] at h
  obtain ⟨_, -, _, -, h⟩ := h
  obtain ⟨hadmin, h⟩ | ⟨-, h⟩ := Check.ite_ok.mp h
  · obtain ⟨_, hop, -⟩ := Check.bind_ok.mp h
    exact ⟨adminOperation_public hop, fun hnot => by rw [hadmin] at hnot; cases hnot⟩
  · obtain ⟨_, hop, -⟩ := Check.bind_ok.mp h
    have hnull : (v.get "admin_operation").isNull = true := by simpa using hop
    exact ⟨isNull_public hnull, fun _ => hnull⟩

theorem importObjects_public {chainId : String} {u : Unit}
    (h : importObjects X chainId v = .ok u) :
    ∀ k ∈ importKinds, ∀ obj ∈ a v k.2, obj.Public := by
  intro k hk obj hobj
  have hobj := Check.each_ok.mp (Check.each_ok.mp h k hk) obj hobj
  obtain ⟨_, hv, -⟩ := Check.bind_ok.mp hobj
  exact validate_public hv

theorem record_public {st : Store} {c : Chain} {auth : Auth} {snapshot staged b : Bool}
    (h : record X st c v auth snapshot staged = .ok b) : v.Public := by
  obtain ⟨_, hv, -⟩ := Check.bind_ok.mp h
  exact validate_public hv

theorem repairCheck_public {st : Store} {c : Chain} {call : Call} {source : Json} {u : Unit}
    (h : repairCheck X st c call source v = .ok u) : v.Public := by
  obtain ⟨_, hv, -⟩ := Check.bind_ok.mp h
  exact validate_public hv

theorem uploadEnvelopeCheck_public {st : Store} {c : Chain} {call : Call} {u : Unit}
    (h : uploadEnvelopeCheck X st c call v = .ok u) : v.Public := by
  obtain ⟨_, hv, -⟩ := Check.bind_ok.mp h
  exact validate_public hv

end Checks

/-! ## Public stores -/

theorem receipt_public (r : Receipt) : r.toJson.Public := by
  refine public_members rfl ?_
  simp [Receipt.unsigned, Receipt.rest]

theorem receiptsJson_public (rs : List Receipt) : (receiptsJson rs).Public :=
  public_arr.mpr fun _ hx => by
    obtain ⟨r, -, rfl⟩ := List.mem_map.mp hx
    exact receipt_public r

theorem transparencyEntry_public (e : TransparencyEntry) : e.toJson.Public := by
  refine public_members rfl ?_
  simp [TransparencyEntry.unsigned, TransparencyEntry.rest]

theorem logEntry_public {e : LogEntry} (h : e.object.Public) : e.toJson.Public := by
  unfold LogEntry.toJson
  cases e.committedAtMs with
  | none =>
      refine public_members rfl ?_
      simp [h]
  | some t =>
      refine public_members rfl ?_
      simp [h]

theorem entryJson_public {entry : Option LogEntry} (h : ∀ e, entry = some e → e.toJson.Public) :
    (entryJson entry).Public := by
  cases entry with
  | none => exact public_null
  | some e => exact h e rfl

theorem result_public (X : Crypto) (c : Chain) : (c.result X).Public := by
  refine public_members rfl ?_
  simp

theorem deleteLedger_public (X : Crypto) (c : Chain) {v : Json}
    (hid : (v.get "deletion_id").Public) (authority : String) (requested deadline : Nat) :
    (deleteLedger X c v authority requested deadline).Public :=
  (public_members rfl (by simp [hid])).set (public_str _) (by decide)

theorem deleteReceipt_public {X : Crypto} {c : Chain} {ledger receipt : Json}
    (hledger : ledger.Public) (h : deleteReceipt X c ledger = .ok receipt) : receipt.Public := by
  obtain ⟨signature, -, h⟩ := Check.bind_ok.mp h
  obtain rfl := Check.pure_ok.mp h
  exact (public_members rfl (by simp [hledger.get])).set (public_str _) (by decide)

/-- What authorizes a device's deletion: its request and its scanned token. -/
theorem deviceAuthorization_public {auth : Auth} {v : Json} (htoken : auth.token.Public)
    (hv : v.Public) : (deviceAuthorization auth v).Public :=
  public_members rfl (by simp [htoken, hv])

/-- A completed proof. -/
theorem completedProof_public {X : Crypto} {proof proof' : Json} {t : Nat} (h : proof.Public)
    (hdone : completedProof X proof t = .ok proof') : proof'.Public := by
  obtain ⟨signature, -, hdone⟩ := Check.bind_ok.mp hdone
  obtain rfl := Check.pure_ok.mp hdone
  have hledger := ((h.get "ledger").set (public_num t) (by decide :
    "completed_at_ms" ∉ ["type", "mnemonic", "passphrase"]))
  refine (h.set (hledger.set (public_str _) (by decide)) (by decide)).set ?_ (by decide)
  exact ((((h.get "delete_receipt").set (public_num t) (by decide)).set
    ((hledger.set (public_str _) (by decide)).get _) (by decide)).set (public_str _) (by decide))

/-- The chain row names public objects. -/
structure Chain.Public (c : Chain) : Prop where
  parameters : c.parameters.Public
  epoch : c.epoch.Public

/-- What the tables hold of clients is public. -/
structure Store.Public (st : Store) : Prop where
  chain : ∀ c, st.chain = some c → c.Public
  objects : ∀ r ∈ st.objects, ∀ v, r.body = some v → v.Public
  log : ∀ r ∈ st.log, ∀ e, r.entry = some e → e.toJson.Public
  offers : ∀ r ∈ st.offers, r.offer.Public ∧ ∀ v, r.request = some v → v.Public
  offerHistory : ∀ r ∈ st.offerHistory, r.offer.Public ∧ ∀ v, r.request = some v → v.Public
  imports : ∀ i, st.imports = some i → i.parameters.Public ∧ i.epoch.Public
  deletion : ∀ d, st.deletion = some d → d.proof.Public ∧ d.outcome.Public
  deleteVersions : ∀ r ∈ st.deleteVersions, r.proof.Public
  outcomes : ∀ r ∈ st.outcomes, r.response.Public

/-- The tables that hold objects of clients, and the chain row. -/
def Store.clients (st : Store) : Store :=
  { Store.blank with
    chain := st.chain
    objects := st.objects
    log := st.log
    offers := st.offers
    offerHistory := st.offerHistory
    imports := st.imports
    deletion := st.deletion
    deleteVersions := st.deleteVersions
    outcomes := st.outcomes }

namespace Store.Public

variable {st st' : Store}

theorem congr (h : st.Public) (he : st'.clients = st.clients) : st'.Public := by
  simp only [Store.clients, Store.mk.injEq] at he
  obtain ⟨hchain, hobjects, -, hlog, -, -, -, -, houtcomes, hoffers, -, -, -, hhistory, himports,
    -, hdeletion, hversions⟩ := he
  exact ⟨hchain ▸ h.chain, hobjects ▸ h.objects, hlog ▸ h.log, hoffers ▸ h.offers,
    hhistory ▸ h.offerHistory, himports ▸ h.imports, hdeletion ▸ h.deletion,
    hversions ▸ h.deleteVersions, houtcomes ▸ h.outcomes⟩

theorem blank : Store.blank.Public where
  chain := fun _ h => by cases h
  objects := fun _ h => absurd h (Table.not_mem_empty _)
  log := fun _ h => absurd h (Table.not_mem_empty _)
  offers := fun _ h => absurd h (Table.not_mem_empty _)
  offerHistory := fun _ h => absurd h List.not_mem_nil
  imports := fun _ h => by cases h
  deletion := fun _ h => by cases h
  deleteVersions := fun _ h => absurd h (Table.not_mem_empty _)
  outcomes := fun _ h => absurd h (Table.not_mem_empty _)

/-- A stored body. -/
theorem object (h : st.Public) {kind : Kind} {id : String} {v : Json}
    (hv : st.object kind id = some v) : v.Public := by
  obtain ⟨r, hr, hbody⟩ := Option.bind_eq_some_iff.mp hv
  exact h.objects r (Table.mem_of_find? hr) v hbody

/-- The certificates of a stored device. -/
theorem certificateChain (h : st.Public) {fuel : Nat} {current : String} {seen : List String}
    {certificates : List Json}
    (hchain : certificateChain st fuel current seen = .ok certificates) :
    ∀ cert ∈ certificates, cert.Public := by
  induction fuel generalizing current seen certificates with
  | zero => cases hchain
  | succ fuel ih =>
      simp only [PallaSync.certificateChain, Check.bind_ok, Check.require_ok] at hchain
      obtain ⟨_, -, d, hd, hchain⟩ := hchain
      have hcert := (h.object hd).get "enrollment"
      obtain ⟨-, hchain⟩ | ⟨-, hchain⟩ := Check.ite_ok.mp hchain
      · obtain rfl := Check.pure_ok.mp hchain
        exact fun cert hmem => List.mem_singleton.mp hmem ▸ hcert
      · obtain ⟨rest, hrest, hchain⟩ := Check.bind_ok.mp hchain
        obtain rfl := Check.pure_ok.mp hchain
        exact List.forall_mem_cons.mpr ⟨hcert, ih hrest⟩

theorem deletingDevice (h : st.Public) {auth : Auth} {r : Option String × List Json}
    (hr : deletingDevice st auth = .ok r) : ∀ cert ∈ r.2, cert.Public := by
  unfold PallaSync.deletingDevice at hr
  split at hr
  · obtain rfl := Except.ok.inj hr
    exact fun _ hmem => absurd hmem List.not_mem_nil
  · obtain ⟨certificates, hchain, hr⟩ := Check.bind_ok.mp hr
    obtain rfl := Check.pure_ok.mp hr
    exact h.certificateChain hchain

end Store.Public

end PallaSync
