import PallaSync.Sample

/-!
# Batches

An upload answers for every item it was sent. Its loop leaves through many
doors: an item may be accepted, be rejected, or find the storage broken at
one of four moments, and the evidence of a rejection is a transaction of its
own that may fail too. Through each of them the items stay accounted for
(`Accounted`): what was accepted, what was rejected and what is left are the
items of the batch, and what was accepted is what was committed.

Other requests run between the items. They never touch the task of the
upload, so the account is kept along every run without a restart.
-/

namespace PallaSync

open Atomic Machine

/-! ## Answers for an item -/

/-- The identifiers of the items of a batch. -/
def Call.itemIds (call : Call) : List String :=
  (a call.value call.route.itemsKey).map (s · call.route.itemId)

/-- The kind under which an uploaded item is stored. -/
def Route.itemKind : Route → Kind
  | .envelopesPost => .envelope
  | .partsPost => .snapshotPart
  | _ => .record

/-- The item an accepted answer is about: the answer itself or its record. -/
def acceptedId (x : Json) : String := x.asStr.getD (s x "record_id")

/-- An item that was committed, with the receipt the relay holds for it then. -/
abbrev Landing := Json × Option Receipt

theorem rejection_id (v : Json) (id : String) (e : ApiError) :
    s (rejection v id e) id = s v id := by
  show (((Json.setMember id (v.get id) _).lookup id).getD .null).asStr.getD "" = _
  rw [Json.lookup_setMember, if_pos rfl]
  rfl

theorem Logged.stored {X : Crypto} {kind : Kind} {v : Json} {entry : Option LogEntry}
    {r : Receipt} {L L' : Ledger} (h : Logged X kind v entry r L L') :
    (L'.receipts.find? (kind, objectId v kind)).map (·.receipt) = some r := by
  cases h with
  | again h =>
      obtain ⟨rr, hrr, rfl⟩ := h.receipt
      rw [hrr]
      rfl
  | fresh h =>
      rw [h.receipted.find?, if_pos rfl]
      rfl

section Items

variable {R : Relay} {call : Call} {r : Json} {w w' : Work}

theorem append_receipt {kind : Kind} {x : Option LogEntry × Receipt}
    (h : append R.crypto kind r w = .ok (x, w')) :
    w'.cell.store.receipt kind (objectId r kind) = some x.2 := (append_ok h).1.stored

theorem snapshotPart_receipt {x : Receipt} (h : snapshotPart R.crypto r w = .ok (x, w')) :
    w'.cell.store.receipt .snapshotPart (s r "record_id") = some x := by
  simp only [snapshotPart, bind_ok] at h
  obtain ⟨fresh, w₁, hput, h⟩ := h
  cases fresh with
  | false =>
      simp only [Bool.false_eq_true, if_false, bind_ok, look_ok, require_ok] at h
      obtain ⟨_, _, ⟨rfl, rfl⟩, hx, rfl⟩ := h
      exact hx
  | true =>
      simp only [if_true, bind_ok, chain_ok, now_ok, pure_ok] at h
      obtain ⟨_, _, -, _, _, ⟨rfl, rfl⟩, _, _, ⟨-, rfl⟩, _, _, -, _, _, hstore, rfl, rfl⟩ := h
      obtain ⟨-, tab, htab, hw⟩ := storeReceipt_ok hstore
      rw [hw]
      show (tab.find? _).map _ = _
      rw [Table.find?_insert? htab, if_pos rfl]
      rfl

/-- What an accepted item is answered with: it names the item, and brings the
receipt the relay holds for it. -/
structure Answered (call : Call) (r : Json) (x : Json × Option Receipt) (st : Store) : Prop where
  names : acceptedId x.1 = s r call.route.itemId
  receipt : x.2 = st.receipt call.route.itemKind (s r call.route.itemId)
  receipted : x.2.isSome

theorem uploadRecord_answers {x : Json × Option Receipt} (hroute : call.route ≠ .envelopesPost)
    (h : uploadRecord R.crypto call r w = .ok (x, w')) : Answered call r x w'.cell.store := by
  have hid : call.route.itemId = "record_id" := if_neg hroute
  simp only [uploadRecord, bind_ok] at h
  obtain ⟨c, w₁, -, _, w₂, -, staged, w₃, -, dup, w₄, -, _, w₅, -, h⟩ := h
  split at h
  · rename_i hsnap
    obtain ⟨receipt, w₆, hpart, h⟩ := bind_ok.mp h
    obtain ⟨rfl, rfl⟩ := pure_ok.mp h
    have hkind : call.route.itemKind = .snapshotPart := by rw [eq_of_beq hsnap]; rfl
    refine ⟨?_, ?_, rfl⟩
    · rw [hid]
      rfl
    · rw [hid, hkind]
      exact (snapshotPart_receipt hpart).symm
  · rename_i hsnap
    obtain ⟨p, w₆, happ, h⟩ := bind_ok.mp h
    obtain ⟨rfl, rfl⟩ := pure_ok.mp h
    have hkind : call.route.itemKind = .record := by
      unfold Route.itemKind
      split
      · rename_i he
        exact absurd he hroute
      · rename_i hp
        exact absurd (beq_iff_eq.mpr hp) hsnap
      · rfl
    refine ⟨?_, ?_, rfl⟩
    · rw [hid]
      rfl
    · rw [hid, hkind]
      exact (append_receipt happ).symm

theorem uploadItem_answers {index : Nat} {x : Json × Option Receipt}
    (h : uploadItem R call index r w = .ok (x, w')) : Answered call r x w'.cell.store := by
  simp only [uploadItem, bind_ok, now_ok, lift_ok, check_ok] at h
  obtain ⟨t, _, ⟨-, rfl⟩, _, _, ⟨-, rfl⟩, _, _, ⟨-, rfl⟩, _, _, ⟨-, rfl⟩, h⟩ := h
  have saved : ∀ {w₁ : Work} {y}, Answered call r y w₁.cell.store →
      (∃ u w₂, save R w₁ = .ok (u, w₂) ∧ x = y ∧ w₂ = w') →
        Answered call r x w'.cell.store := fun {w₁} _ hy hs => by
    obtain ⟨_, w₂, hsave, rfl, rfl⟩ := hs
    have hrec : w₂.cell.store.receipts = w₁.cell.store.receipts :=
      congrArg Ledger.receipts (save_ok hsave).ledger
    refine ⟨hy.names, hy.receipt.trans ?_, hy.receipted⟩
    unfold Store.receipt
    rw [hrec]
  generalize hroute : call.route = route at h
  split at h
  · simp only [uploadEnvelope, bind_ok, check_ok, pure_ok] at h
    obtain ⟨y, w₁, ⟨_, _, ⟨-, rfl⟩, p, _, happ, rfl, rfl⟩, h⟩ := h
    refine saved ⟨?_, ?_, rfl⟩ h
    · rw [hroute]
      rfl
    · rw [hroute]
      exact (append_receipt happ).symm
  · simp only [uploadRepair, bind_ok, check_ok, look_ok, pure_ok] at h
    obtain ⟨y, w₁, ⟨_, _, ⟨-, rfl⟩, _, _, ⟨rfl, rfl⟩, p, _, happ, rfl, rfl⟩, h⟩ := h
    refine saved ⟨?_, ?_, rfl⟩ h
    · rw [hroute]
      rfl
    · rw [hroute]
      exact (append_receipt happ).symm
  · rename_i he hr
    rw [← hroute] at he
    simp only [bind_ok, pure_ok] at h
    obtain ⟨y, w₁, hup, h⟩ := h
    exact saved (uploadRecord_answers he hup) h

end Items

/-! ## The account of a batch -/

/-- The items of the batch are what was accepted, what was rejected and what
is left, and what was accepted is what was committed. -/
structure Accounted (call : Call) (cs : List Landing) (p : Progress) : Prop where
  distinct : call.itemIds.Nodup
  ids : (p.accepted.map acceptedId ++ p.rejected.map (s · call.route.itemId) ++
    p.remaining.map (s ·.2 call.route.itemId)).Perm call.itemIds
  accepted : p.accepted.map acceptedId = cs.map (s ·.1 call.route.itemId)
  receipts : p.receipts.map some = cs.map (·.2)

/-- What a turn of the loop accounts for: an answer that fails as a whole
comes before the first commit. -/
def Turn.Accounts (call : Call) (cs : List Landing) : Turn → Prop
  | .next p => Accounted call cs p
  | .audit p r e => Accounted call cs p ∧
      ∃ front, p.rejected = front ++ [rejection r call.route.itemId e]
  | .stop p => Accounted call cs { p with remaining := [] }
  | .fail _ => cs = []

namespace Accounted

variable {call : Call} {cs : List Landing} {p : Progress} {item : Nat × Json}
  {rest rs : List (Nat × Json)}

/-- Nothing is committed while nothing is accepted. -/
theorem none_committed (h : Accounted call cs p) (hnone : p.accepted.isEmpty = true) : cs = [] := by
  have hmap := h.accepted
  rw [List.isEmpty_iff.mp hnone] at hmap
  exact List.map_eq_nil_iff.mp hmap.symm

/-- Every item left is rejected. -/
theorem rejectAll (h : Accounted call cs p) (hrem : p.remaining = rs) (e : ApiError) :
    Accounted call cs (p.rejectAll call.route.itemId e rs) := by
  refine ⟨h.distinct, ?_, h.accepted, h.receipts⟩
  have hids := h.ids
  rw [hrem] at hids
  have hmap : (rs.map fun r => rejection r.2 call.route.itemId e).map (s · call.route.itemId) =
      rs.map (s ·.2 call.route.itemId) := by
    rw [List.map_map]
    exact List.map_congr_left fun r _ => rejection_id _ _ _
  show (_ ++ List.map _ (p.rejected ++ _) ++ List.map _ []).Perm _
  rw [List.map_append, hmap, List.map_nil, List.append_nil, ← List.append_assoc]
  exact hids

theorem broken (h : Accounted call cs p) (hrem : p.remaining = rs) (e : ApiError) :
    (p.broken call.route.itemId e rs).Accounts call cs := by
  unfold Progress.broken
  split
  · rename_i hnone
    exact h.none_committed hnone
  · exact h.rejectAll hrem e

/-- The next item is rejected. -/
theorem rejectHead (h : Accounted call cs p) (hrem : p.remaining = item :: rest) (e : ApiError) :
    Accounted call cs { p with
      remaining := rest
      rejected := p.rejected ++ [rejection item.2 call.route.itemId e] } := by
  refine ⟨h.distinct, ?_, h.accepted, h.receipts⟩
  have hids := h.ids
  rw [hrem, List.map_cons, List.append_cons] at hids
  rw [List.map_append, List.map_singleton, rejection_id, ← List.append_assoc]
  exact hids

/-- The next item is accepted: its answer names it. -/
theorem acceptHead (h : Accounted call cs p) (hrem : p.remaining = item :: rest)
    {x : Json × Option Receipt} {st : Store} (hx : Answered call item.2 x st) (c : Option Chain) :
    Accounted call
      (cs ++ [(item.2, st.receipt call.route.itemKind (s item.2 call.route.itemId))]) { p with
      remaining := rest
      accepted := p.accepted ++ [x.1]
      receipts := p.receipts ++ x.2.toList
      finalChain := c } := by
  obtain ⟨r, hr⟩ := Option.isSome_iff_exists.mp hx.receipted
  refine ⟨h.distinct, ?_, ?_, ?_⟩
  · have hids := h.ids
    rw [hrem, List.map_cons] at hids
    refine List.Perm.trans ?_ hids
    rw [List.map_append, List.map_singleton, hx.names, List.append_assoc, List.append_assoc,
      List.append_assoc]
    refine List.Perm.append_left _ ?_
    rw [List.singleton_append]
    exact List.perm_middle.symm
  · rw [List.map_append, List.map_append, h.accepted, List.map_singleton, List.map_singleton,
      hx.names]
  · rw [List.map_append, List.map_append, h.receipts, ← hx.receipt, hr]
    rfl

/-- The last rejection is replaced by another one of the same item. -/
theorem replaceLast (h : Accounted call cs p) {front : List Json} {r : Json} {e : ApiError}
    (hlast : p.rejected = front ++ [rejection r call.route.itemId e]) (e' : ApiError) :
    Accounted call cs
      { p with rejected := p.rejected.dropLast ++ [rejection r call.route.itemId e'] } := by
  refine ⟨h.distinct, ?_, h.accepted, h.receipts⟩
  have hids := h.ids
  rw [hlast, List.map_append, List.map_singleton, rejection_id] at hids
  show (_ ++ List.map _ (p.rejected.dropLast ++ _) ++ _).Perm _
  rw [hlast, List.dropLast_concat, List.map_append, List.map_singleton, rejection_id]
  exact hids

end Accounted

/-! ## The turns of the loop -/

section Turns

variable {call : Call} {cs : List Landing} {p : Progress} {item : Nat × Json}
  {rest : List (Nat × Json)}

theorem afterRejection_accounts (X : Crypto) (h : Accounted call cs p)
    (hrem : p.remaining = item :: rest) (faults : Faults) (e : ApiError) :
    (afterRejection X call.route p item rest faults e).Accounts call cs := by
  unfold afterRejection
  split
  · exact h.broken hrem _
  · split
    · rename_i hfatal
      exact h.none_committed hfatal.1
    · dsimp only
      split
      · exact ⟨h.rejectHead hrem e, p.rejected, rfl⟩
      · exact h.rejectHead hrem e

theorem afterAudit_accounts (h : Accounted call cs p) {front : List Json} {r : Json} {e : ApiError}
    (hlast : p.rejected = front ++ [rejection r call.route.itemId e])
    (outcome : Except ApiError Chain) : (afterAudit call.route p r outcome).Accounts call cs := by
  unfold afterAudit
  split
  · exact ⟨h.distinct, h.ids, h.accepted, h.receipts⟩
  · split
    · rename_i hnone
      exact h.none_committed hnone
    · exact (h.replaceLast hlast _).rejectAll rfl _

theorem stepItemAudit_accounts (R : Relay) (o : Oracle) (faults : Faults) {r : Json} {e : ApiError}
    (st : Store) (h : (Turn.audit p r e).Accounts call cs) :
    (stepItemAudit R o faults call p r e st).2.Accounts call cs := by
  obtain ⟨h, front, hlast⟩ := h
  unfold stepItemAudit
  split
  · exact afterAudit_accounts h hlast (.error _)
  · split
    · exact afterAudit_accounts h hlast (.error _)
    · split
      · exact afterAudit_accounts h hlast (.error _)
      · exact afterAudit_accounts h hlast (.ok _)

/-- The transaction of the item commits: nothing is in its way, and it runs
to its end. -/
def itemLands (R : Relay) (o : Oracle) (faults : Faults) (call : Call) (item : Nat × Json)
    (st : Store) : Bool :=
  !(faults.begin || faults.load || faults.commit) && st.chain.isSome &&
    ((uploadItem R call item.1 item.2).run o st).isOk

/-- An item that does not land is accounted for without a commit. -/
theorem stepItem_missed {R : Relay} {o : Oracle} {faults : Faults} {st : Store}
    (h : Accounted call cs p) (hrem : p.remaining = item :: rest)
    (hmiss : itemLands R o faults call item st = false) :
    (stepItem R o faults call p item rest st).2.Accounts call cs := by
  have hbroken := fun e => h.broken hrem e
  unfold stepItem
  dsimp only
  split
  · exact hbroken _
  · rename_i hbegin
    split
    · exact hbroken _
    · rename_i hload
      split
      · exact hbroken _
      · rename_i c hc
        have hseen : Accounted call cs (p.seen c) := ⟨h.distinct, h.ids, h.accepted, h.receipts⟩
        split
        · exact afterRejection_accounts R.crypto hseen hrem faults _
        · rename_i x cell hrun
          have hcommit : faults.commit = true := by
            simpa [itemLands, hbegin, hload, hc, hrun, Except.isOk, Except.toBool] using hmiss
          unfold afterAcceptance
          dsimp only
          rw [if_pos hcommit]
          exact hseen.broken hrem _

/-- An item that lands is accounted for with its commit. -/
theorem stepItem_landed {R : Relay} {o : Oracle} {faults : Faults} {st : Store}
    (h : Accounted call cs p) (hrem : p.remaining = item :: rest)
    (hland : itemLands R o faults call item st = true) :
    (stepItem R o faults call p item rest st).2.Accounts call
      (cs ++ [(item.2, (stepItem R o faults call p item rest st).1.receipt call.route.itemKind
        (s item.2 call.route.itemId))]) := by
  simp only [itemLands, Bool.and_eq_true, Bool.not_eq_true', Bool.or_eq_false_iff] at hland
  obtain ⟨⟨⟨⟨hbegin, hload⟩, hcommit⟩, hsome⟩, hok⟩ := hland
  obtain ⟨c, hc⟩ := Option.isSome_iff_exists.mp hsome
  cases hrun : (uploadItem R call item.1 item.2).run o st with
  | error e =>
      rw [hrun] at hok
      cases hok
  | ok p' =>
      obtain ⟨x, cell⟩ := p'
      have hseen : Accounted call cs (p.seen c) := ⟨h.distinct, h.ids, h.accepted, h.receipts⟩
      unfold stepItem afterAcceptance
      simp only [hbegin, hload, hcommit, hc, hrun, Bool.false_eq_true, if_false]
      obtain ⟨w₀, w', hw, hm, rfl⟩ := run_ok hrun
      exact hseen.acceptHead hrem (uploadItem_answers hm) _

end Turns

/-! ## The answer -/

/-- What the answer of an upload accounts for: every item once, accepted when
it was committed, with the receipts of those; a failure, no commit at all. -/
def Reply.Accounts (call : Call) (cs : List Landing) : Reply → Prop
  | .json _ v => call.itemIds.Nodup ∧
      ((a v "accepted").map acceptedId ++
        (a v "rejected").map (s · call.route.itemId)).Perm call.itemIds ∧
      (a v "accepted").map acceptedId = cs.map (s ·.1 call.route.itemId) ∧
      ((a v "upload_receipts").map some).Perm (cs.map fun x => x.2.map Receipt.toJson)
  | .problem _ => cs = []
  | .lines _ => False

theorem uploadResponse_get {X : Crypto} {call : Call} {p : Progress} {stored : Option Chain}
    {name : String} (hname : name ∈ ["accepted", "rejected", "upload_receipts"]) :
    (uploadResponse X call p stored).get name =
      (Json.obj [("accepted", .arr p.accepted), ("rejected", .arr p.rejected),
        ("upload_receipts", receiptsJson (sortedReceipts X call.route
          (a call.value call.route.itemsKey) p.receipts))]).get name := by
  have hne : name ≠ "generation" ∧ name ≠ "log_id" ∧ name ≠ "head_seq" ∧ name ≠ "head_hash" ∧
      name ≠ "repair_required" := by
    simp only [List.mem_cons, List.not_mem_nil, or_false] at hname
    obtain rfl | rfl | rfl := hname <;> decide
  obtain ⟨h₁, h₂, h₃, h₄, h₅⟩ := hne
  unfold uploadResponse headSummary
  dsimp only
  split
  · rfl
  · split
    · split
      · rw [Json.get_set_ne _ _ h₅, Json.get_set_ne _ _ h₄, Json.get_set_ne _ _ h₃,
          Json.get_set_ne _ _ h₂, Json.get_set_ne _ _ h₁]
      · rw [Json.get_set_ne _ _ h₅]
    · split
      · rw [Json.get_set_ne _ _ h₄, Json.get_set_ne _ _ h₃, Json.get_set_ne _ _ h₂,
          Json.get_set_ne _ _ h₁]
      · rfl

theorem sortedReceipts_perm (X : Crypto) (route : Route) (records : List Json)
    (rs : List Receipt) : (sortedReceipts X route records rs).Perm rs := by
  unfold sortedReceipts
  split
  · exact List.perm_insertionSort _ _
  · exact List.perm_insertionSort _ _

theorem Accounted.answer {X : Crypto} {call : Call} {cs : List Landing} {p : Progress}
    {stored : Option Chain} {status : Nat} (h : Accounted call cs p) (hrem : p.remaining = []) :
    (Reply.json status (uploadResponse X call p stored)).Accounts call cs := by
  have hacc : a (uploadResponse X call p stored) "accepted" = p.accepted := by
    rw [a, uploadResponse_get (by simp)]
    rfl
  have hrej : a (uploadResponse X call p stored) "rejected" = p.rejected := by
    rw [a, uploadResponse_get (by simp)]
    rfl
  have hrec : a (uploadResponse X call p stored) "upload_receipts" =
      (sortedReceipts X call.route (a call.value call.route.itemsKey) p.receipts).map
        Receipt.toJson := by
    rw [a, uploadResponse_get (by simp)]
    rfl
  have hids := h.ids
  rw [hrem, List.map_nil, List.append_nil] at hids
  refine ⟨h.distinct, ?_, ?_, ?_⟩
  · rw [hacc, hrej]
    exact hids
  · rw [hacc]
    exact h.accepted
  · have hlanded : cs.map (fun x => x.2.map Receipt.toJson) =
        (p.receipts.map Receipt.toJson).map some := by
      calc cs.map (fun x => x.2.map Receipt.toJson)
          = (cs.map (·.2)).map (·.map Receipt.toJson) := by rw [List.map_map]; rfl
        _ = (p.receipts.map some).map (·.map Receipt.toJson) := by rw [h.receipts]
        _ = (p.receipts.map Receipt.toJson).map some := by rw [List.map_map, List.map_map]; rfl
    rw [hrec, hlanded]
    exact ((sortedReceipts_perm X _ _ _).map _).map _

/-! ## Runs -/

/-- What the task of the upload accounts for. -/
def Task.Accounts (call : Call) (cs : List Landing) : Task → Prop
  | .shape call' => call' = call ∧ cs = []
  | .items call' p => call' = call ∧ Accounted call cs p
  | .itemAudit call' p r e => call' = call ∧ (Turn.audit p r e).Accounts call cs
  | .done reply => reply.Accounts call cs
  | _ => False

theorem Turn.Accounts.task {call : Call} {cs : List Landing} {turn : Turn}
    (h : turn.Accounts call cs) : (turn.task call).Accounts call cs := by
  cases turn with
  | next p => exact ⟨rfl, h⟩
  | audit p r e => exact ⟨rfl, h⟩
  | stop p => exact ⟨rfl, h⟩
  | fail e => exact h

theorem uploadItems_ok {R : Relay} {call : Call} {records : List Json}
    (h : uploadItems R call = .ok records) :
    records = a call.value call.route.itemsKey ∧ call.itemIds.Nodup := by
  by_cases hrepair : call.route = .repair
  · simp only [uploadItems, hrepair, if_true, Check.bind_ok, Check.failIf_ok, Check.pure_ok,
      Bool.or_eq_false_iff, Bool.not_eq_false', decide_eq_true_eq] at h
    obtain ⟨_, -, _, -, _, -, _, -, _, ⟨-, hnodup⟩, rfl⟩ := h
    refine ⟨by rw [hrepair], ?_⟩
    rw [Call.itemIds, hrepair]
    exact hnodup
  · simp only [uploadItems, hrepair, if_false, Check.bind_ok, Check.failIf_ok, Check.pure_ok,
      Bool.or_eq_false_iff, Bool.not_eq_false', decide_eq_true_eq] at h
    obtain ⟨_, -, _, -, _, -, _, ⟨-, hnodup⟩, rfl⟩ := h
    exact ⟨rfl, hnodup⟩

/-- A batch that starts has nothing but its items. -/
theorem stepShape_accounts (R : Relay) (call : Call) (st : Store) :
    (stepShape R call st).Accounts call [] := by
  unfold stepShape
  dsimp only
  split
  · exact rfl
  · rename_i records hready
    obtain ⟨rs, hitems, h⟩ := Check.bind_ok.mp hready
    obtain ⟨_, -, h⟩ := Check.bind_ok.mp h
    obtain ⟨_, -, h⟩ := Check.bind_ok.mp h
    obtain rfl := Check.pure_ok.mp h
    obtain ⟨rfl, hnodup⟩ := uploadItems_ok hitems
    refine ⟨rfl, hnodup, ?_, rfl, rfl⟩
    have hmap : ((a call.value call.route.itemsKey).zipIdx.map fun x => (x.2, x.1)).map
        (fun x : Nat × Json => s x.2 call.route.itemId) = call.itemIds := by
      rw [List.map_map]
      show ((a call.value call.route.itemsKey).zipIdx.map
        ((s · call.route.itemId) ∘ Prod.fst)) = _
      rw [← List.map_map, List.zipIdx_map_fst]
      rfl
    show (List.map _ [] ++ List.map _ [] ++ List.map _ _).Perm _
    rw [List.map_nil, List.map_nil, List.nil_append, List.nil_append]
    exact (List.Perm.of_eq hmap)

namespace World

variable {X : Crypto} {w : World} {i : Nat}

/-- The item of task `i` that this event commits, if it does, with the
receipt the relay then holds for it. -/
def landing (X : Crypto) (i : Nat) (w : World) (ev : Event) : Option Landing :=
  match ev with
  | .resume j o faults => match w.tasks[j]? with
    | some (.items call p) => match p.remaining with
      | item :: _ =>
          if j = i ∧ itemLands (w.relay X) o faults call item (w.store call.chain) = true then
            some (item.2, ((w.step X ev).store call.chain).receipt call.route.itemKind
              (s item.2 call.route.itemId))
          else none
      | [] => none
    | _ => none
  | _ => none

/-- A task is run by nobody but itself. -/
theorem stepTask_other {j : Nat} {o : Oracle} {faults : Faults} (h : j ≠ i) :
    (w.stepTask X j o faults).tasks[i]? = w.tasks[i]? := by
  have hset : ∀ {w' : World} {task : Task}, w'.tasks = w.tasks →
      (w'.setTask j task).tasks[i]? = w.tasks[i]? := fun {w' task} hw => by
    show (w'.tasks.set j task)[i]? = _
    rw [List.getElem?_set_ne h, hw]
  unfold stepTask
  dsimp only
  split
  · unfold stepStart
    dsimp only
    split
    · exact hset rfl
    · split
      · split
        · exact hset rfl
        · exact hset rfl
      · split
        · exact hset rfl
        · exact hset rfl
  · exact hset rfl
  · split
    · exact hset rfl
    · exact hset rfl
  · exact hset rfl
  · exact hset rfl
  · unfold stepErase
    dsimp only
    split
    · exact hset rfl
    · exact hset rfl
  · unfold stepFinish
    dsimp only
    split
    · rename_i w' hw'
      exact hset (mapStores_ok hw' "").2.2
    · exact hset rfl
  · unfold stepNotices
    split
    · rename_i w' hw'
      exact hset (mapStores_ok hw' "").2.2
    · exact hset rfl
  · rfl
  · rfl

theorem stepRequest_tasks (q : Request) (o : Oracle) :
    ∃ task, (w.stepRequest X q o).tasks = w.tasks ++ [task] := by
  unfold stepRequest stepEnrollment
  dsimp only
  split
  · split
    · exact ⟨_, rfl⟩
    · split
      · exact ⟨_, rfl⟩
      · split
        · exact ⟨_, rfl⟩
        · split
          · exact ⟨_, rfl⟩
          · exact ⟨_, rfl⟩
  · split
    · exact ⟨_, rfl⟩
    · split
      · exact ⟨_, rfl⟩
      · exact ⟨_, rfl⟩

/-- The upload's task `i` accounts for what was committed so far. -/
def Accounts (i : Nat) (call : Call) (w : World) (cs : List Landing) : Prop :=
  ∃ task, w.tasks[i]? = some task ∧ task.Accounts call cs

theorem stepTask_accounts {call : Call} {cs : List Landing} {o : Oracle} {faults : Faults}
    (h : w.Accounts i call cs) :
    (w.stepTask X i o faults).Accounts i call
      (cs ++ (w.landing X i (.resume i o faults)).toList) := by
  obtain ⟨task, ht, hacc⟩ := h
  have hi : i < w.tasks.length := (List.getElem?_eq_some_iff.mp ht).1
  have hset : ∀ {w' : World} {task' : Task} {cs' : List Landing}, w'.tasks = w.tasks →
      task'.Accounts call cs' → (w'.setTask i task').Accounts i call cs' :=
    fun {w' task' cs'} hw h' => by
      refine ⟨task', ?_, h'⟩
      show (w'.tasks.set i task')[i]? = _
      rw [hw, List.getElem?_set_self hi]
  have hstep : w.step X (.resume i o faults) = w.stepTask X i o faults := rfl
  cases task with
  | shape call' =>
      obtain ⟨rfl, rfl⟩ := hacc
      have hnone : w.landing X i (.resume i o faults) = none := by simp only [landing, ht]
      rw [hnone]
      simp only [stepTask, ht]
      exact hset rfl (stepShape_accounts _ _ _)
  | items call' p =>
      obtain ⟨rfl, hacc⟩ := hacc
      cases hrem : p.remaining with
      | nil =>
          have hnone : w.landing X i (.resume i o faults) = none := by
            simp only [landing, ht, hrem]
          rw [hnone]
          simp only [stepTask, ht, hrem, Option.toList_none, List.append_nil]
          have hanswer : (Reply.json 200 (uploadResponse X call' p
              (w.store call'.chain).chain)).Accounts call' cs := hacc.answer hrem
          exact hset rfl hanswer
      | cons item rest =>
          have hcommit : w.stepTask X i o faults = w.commit i call'.chain
              ((stepItem (w.relay X) o faults call' p item rest (w.store call'.chain)).1,
                (stepItem (w.relay X) o faults call' p item rest
                  (w.store call'.chain)).2.task call') := by
            simp only [stepTask, ht, hrem]
          have hstore : (w.stepTask X i o faults).store call'.chain =
              (stepItem (w.relay X) o faults call' p item rest (w.store call'.chain)).1 := by
            rw [hcommit, store_commit, if_pos rfl]
          cases hland : itemLands (w.relay X) o faults call' item (w.store call'.chain) with
          | false =>
              have hnone : w.landing X i (.resume i o faults) = none := by
                simp only [landing, ht, hrem, hland, Bool.false_eq_true, and_false, if_false]
              rw [hnone, hcommit, Option.toList_none, List.append_nil]
              exact hset rfl (stepItem_missed hacc hrem hland).task
          | true =>
              have hsome : w.landing X i (.resume i o faults) = some (item.2,
                  ((w.stepTask X i o faults).store call'.chain).receipt call'.route.itemKind
                    (s item.2 call'.route.itemId)) := by
                simp only [landing, ht, hrem, hland, true_and, if_true, hstep]
              rw [hsome, hstore, hcommit]
              exact hset rfl (stepItem_landed hacc hrem hland).task
  | itemAudit call' p r e =>
      obtain ⟨rfl, hacc⟩ := hacc
      have hnone : w.landing X i (.resume i o faults) = none := by simp only [landing, ht]
      rw [hnone, Option.toList_none, List.append_nil]
      simp only [stepTask, ht]
      exact hset rfl (stepItemAudit_accounts _ _ _ _ hacc).task
  | done reply =>
      have hnone : w.landing X i (.resume i o faults) = none := by simp only [landing, ht]
      rw [hnone, Option.toList_none, List.append_nil]
      simp only [stepTask, ht]
      exact ⟨_, ht, hacc⟩
  | start _ _ | audit _ _ | erase _ | finish _ | notices => exact hacc.elim

/-- Every step but a restart keeps the account. -/
theorem step_accounts {call : Call} {cs : List Landing} {ev : Event}
    (hev : ∀ settings t, ev ≠ .restart settings t) (h : w.Accounts i call cs) :
    (w.step X ev).Accounts i call (cs ++ (w.landing X i ev).toList) := by
  obtain ⟨task, ht, hacc⟩ := h
  have keep : ∀ {w' : World}, w'.tasks[i]? = w.tasks[i]? → w.landing X i ev = none →
      w'.Accounts i call (cs ++ (w.landing X i ev).toList) := fun {w'} he hnone => by
    rw [hnone, Option.toList_none, List.append_nil]
    exact ⟨task, he.trans ht, hacc⟩
  have hi : i < w.tasks.length := (List.getElem?_eq_some_iff.mp ht).1
  cases ev with
  | request q o =>
      obtain ⟨new, hnew⟩ := stepRequest_tasks (X := X) (w := w) q o
      refine keep ?_ rfl
      show (w.stepRequest X q o).tasks[i]? = _
      rw [hnew, List.getElem?_append_left hi]
  | resume j o faults =>
      by_cases hj : j = i
      · subst hj
        exact stepTask_accounts ⟨task, ht, hacc⟩
      · have hnone : w.landing X i (.resume j o faults) = none := by
          unfold landing
          dsimp only
          split
          · split
            · rw [if_neg fun hc => hj hc.1]
            · rfl
          · rfl
        exact keep (stepTask_other hj) hnone
  | complete => exact keep (List.getElem?_append_left hi) rfl
  | retention o =>
      refine keep ?_ rfl
      show (w.stepRetention X o).tasks[i]? = _
      unfold stepRetention
      split
      · rename_i w' hw'
        rw [(mapStores_ok hw' "").2.2]
      · rfl
  | restart settings t => exact absurd rfl (hev settings t)

end World

/-- Whatever else runs between its transactions and whatever fails in them,
the answer of an upload accounts for every item of its batch. -/
theorem batch_partition (X : Crypto) (w : World) (i : Nat) (call : Call) (es : List Event)
    (reply : Reply) (hstart : w.tasks[i]? = some (.shape call))
    (hes : ∀ ev ∈ es, ∀ settings t, ev ≠ .restart settings t)
    (hdone : (run (World.step X) w es).tasks[i]? = some (.done reply)) :
    reply.Accounts call (observe (World.step X) (World.landing X i) w es) := by
  have hstep : ∀ (w : World) (ev : Event) (cs : List Landing), w.Accounts i call cs →
      (∀ settings t, ev ≠ .restart settings t) →
      (w.step X ev).Accounts i call (cs ++ (w.landing X i ev).toList) :=
    fun _ _ _ h hev => World.step_accounts hev h
  have h : (run (World.step X) w es).Accounts i call
      ([] ++ observe (World.step X) (World.landing X i) w es) :=
    run_observed hstep ⟨_, hstart, rfl, rfl⟩ hes
  obtain ⟨task, ht, hacc⟩ := h
  rw [hdone] at ht
  cases ht
  exact hacc

namespace Sample

/-- A batch of three parts: one is good, one is of no known version, one
repeats the nonce of the first. -/
def mixedBatch : List Event := upload 1 2 5 (partsRequest 4 [syncRecord 80 0 0 5,
  (syncRecord 81 0 0 6).set "version" (.str "2.0"), syncRecord 82 0 0 5])

/-- The relay once the batch has arrived and was admitted. -/
def mixedStart : World := World.after crypto cfg (genesisRun ++ mixedBatch.take 2)

theorem upload_runs {i k items : Nat} {q : Request} {ev : Event} (h : ev ∈ upload i k items q) :
    ∀ settings t, ev ≠ .restart settings t := by
  intro settings t he
  subst he
  obtain hq | hmap := List.mem_cons.mp h
  · cases hq
  · obtain ⟨j, -, hj⟩ := List.mem_map.mp hmap
    cases hj

theorem mixedBatch_facts :
    (mixedStart.tasks[1]?.any fun task => match task with
      | .shape _ => true
      | _ => false) = true ∧
    ((run (World.step crypto) mixedStart (mixedBatch.drop 2)).tasks[1]?.any fun task =>
      match task with
      | .done _ => true
      | _ => false) = true ∧
    (observe (World.step crypto) (World.landing crypto 1) mixedStart
      (mixedBatch.drop 2)).length = 1 := by
  decide +kernel

end Sample

/-- The mixed batch is accounted for, with one commit. -/
theorem batch_partition_run : ∃ call reply,
    Sample.mixedStart.tasks[1]? = some (.shape call) ∧
    (run (World.step Sample.crypto) Sample.mixedStart
      (Sample.mixedBatch.drop 2)).tasks[1]? = some (.done reply) ∧
    reply.Accounts call (observe (World.step Sample.crypto) (World.landing Sample.crypto 1)
      Sample.mixedStart (Sample.mixedBatch.drop 2)) := by
  obtain ⟨hshape, hdone, -⟩ := Sample.mixedBatch_facts
  obtain ⟨task, ht, hshape⟩ := (Option.any_eq_true _ _).mp hshape
  obtain ⟨task', ht', hdone⟩ := (Option.any_eq_true _ _).mp hdone
  split at hshape
  · rename_i call
    split at hdone
    · rename_i reply
      exact ⟨call, reply, ht, ht', batch_partition Sample.crypto _ 1 call _ reply ht
        (fun ev hev => Sample.upload_runs (List.mem_of_mem_drop hev)) ht'⟩
    · cases hdone
  · cases hshape

end PallaSync
