import PallaSync.Retries

/-!
# Where a record comes from

The outcomes and the offers are written by the executing transactions of a few
endpoints, each under the names its request gives (`Call.Records`,
`Call.Offers`), and by the answer to an offer. So a recorded outcome can be
traced to the transaction of the run that wrote it: `outcome_origin` finds the
event, the request and the store it was executed on.
-/

namespace PallaSync

open Atomic Machine

/-- Only the outcomes in `K` and the offers in `J` were written. -/
def recordFrame (K : OutcomeScope × String → Prop) (J : String → Prop) : Frame Work where
  rel w w' :=
    (∀ q, ¬K q → w'.cell.store.outcomes.find? q = w.cell.store.outcomes.find? q) ∧
      ∀ id, ¬J id → w'.cell.store.offers.find? id = w.cell.store.offers.find? id
  refl _ := ⟨fun _ _ => rfl, fun _ _ => rfl⟩
  trans h h' := ⟨fun q hq => (h'.1 q hq).trans (h.1 q hq),
    fun id hid => (h'.2 id hid).trans (h.2 id hid)⟩

section Programs

variable {K : OutcomeScope × String → Prop} {J : String → Prop} (X : Crypto) (R : Relay)

theorem recordFrame_of_eq {w w' : Work}
    (ho : w'.cell.store.outcomes = w.cell.store.outcomes)
    (hf : w'.cell.store.offers = w.cell.store.offers) : (recordFrame K J).rel w w' :=
  ⟨fun _ _ => by rw [ho], fun _ _ => by rw [hf]⟩

theorem recordFrame_aside (K : OutcomeScope × String → Prop) (J : String → Prop) :
    SavedAside (recordFrame K J) where
  still w w' h _ := by
    simp only [Store.aside, Store.mk.injEq] at h
    exact recordFrame_of_eq (by simp only [h]) (by simp only [h])
  save R w u w' h := by
    obtain ⟨cut, -, hw, -⟩ := save_published R h
    exact recordFrame_of_eq (by rw [hw]) (by rw [hw])

theorem outcome_keeps {scope : OutcomeScope} {id : String} (hK : K (scope, id))
    (payload response : Json) :
    Keeps (recordFrame K J) (outcome X scope id payload response) := by
  intro w u w' h
  obtain ⟨st, hst, rfl⟩ := attempt_ok.mp h
  obtain ⟨tab, htab, rfl⟩ := Option.map_eq_some_iff.mp hst
  refine ⟨fun q hq => ?_, fun _ _ => rfl⟩
  rw [Table.find?_insert? htab, if_neg]
  rintro rfl
  exact hq hK

theorem insertOffer_keeps {row : OfferRow} (hJ : J row.requestId) :
    Keeps (recordFrame K J) (attempt (·.insertOffer row)) := by
  intro w u w' h
  obtain ⟨st, hst, rfl⟩ := attempt_ok.mp h
  obtain ⟨tab, htab, rfl⟩ := Option.map_eq_some_iff.mp hst
  refine ⟨fun _ _ => rfl, fun id hid => ?_⟩
  rw [Table.find?_insert? htab, if_neg]
  rintro rfl
  exact hid hJ

theorem find?_updateOffer (st : Store) (id : String) (f : OfferRow → OfferRow)
    (hf : ∀ r, (f r).requestId = r.requestId) (q : String) :
    (st.updateOffer id f hf).offers.find? q =
      if q = id then (st.offers.find? q).map f else st.offers.find? q := by
  show (st.offers.update _ f hf).find? q = _
  rw [Table.find?_update]
  cases hrow : st.offers.find? q with
  | none => simp
  | some row =>
      have hkey : row.requestId = q := (Table.find?_eq_some.mp hrow).2
      by_cases hid : q = id
      · simp [hid, hkey.trans hid]
      · simp [hid, hkey]

theorem updateOffer_keeps {id : String} {f : OfferRow → OfferRow}
    {hf : ∀ r, (f r).requestId = r.requestId} (hJ : J id) :
    Keeps (recordFrame K J) (setStore (·.updateOffer id f hf)) := by
  intro w u w' h
  obtain rfl := setStore_ok.mp h
  refine ⟨fun _ _ => rfl, fun q hq => ?_⟩
  rw [find?_updateOffer, if_neg]
  rintro rfl
  exact hq hJ

/-- What the executing transaction of a request can write. -/
theorem recordFrame_serves (call : Call) :
    Serves (recordFrame (call.Records R.crypto) call.Offers) R call where
  toAside := (recordFrame_aside _ _).toAside
  outcome _ h := outcome_keeps _ h _ _
  insertOffer _ h := insertOffer_keeps h
  updateOffer _ _ h := updateOffer_keeps h
  imports _ _ w u w' h := by
    obtain rfl := setStore_ok.mp h
    exact recordFrame_of_eq rfl rfl

theorem executeTx_keeps (call : Call) :
    Keeps (recordFrame (call.Records R.crypto) call.Offers) (executeTx R call) :=
  (recordFrame_serves R call).executeTx.keeps ((recordFrame_aside _ _).save R)

theorem uploadItem_keeps (call : Call) (index : Nat) (r : Json) :
    Keeps (recordFrame K J) (uploadItem R call index r) := by
  have hF := recordFrame_aside K J
  refine (hF.uploadItem R call index r fun w u w' h => ?_).keeps (hF.save R)
  obtain rfl := setStore_ok.mp h
  exact recordFrame_of_eq rfl rfl

end Programs

/-! ## Steps -/

/-- The event runs the executing transaction of `call` on chain `id`, from `u`
to `u'`, and it commits. -/
structure Executing (X : Crypto) (w : World) (id : String) (ev : Event) (call : Call)
    (reply : Reply) (u u' : Work) : Prop where
  acting : w.acting ev = some call
  uploading : w.uploading ev = none
  chain : call.chain = id
  live : (w.store id).deletion = none
  start : u.cell = (w.store id).cell
  executed : executeTx (w.relay X) call u = .ok (reply, u')

/-- What a step does to the outcomes and offers of chain `id`. -/
inductive Writes (X : Crypto) (w : World) (id : String) (ev : Event) (st' : Store) : Prop where
  | kept : (∀ q, st'.outcomes.find? q = (w.store id).outcomes.find? q) →
      (∀ r, st'.offers.find? r = (w.store id).offers.find? r) → Writes X w id ev st'
  | executed {call reply u u'} : Executing X w id ev call reply u u' → st' = u'.cell.store →
      Writes X w id ev st'
  | answered {v x u u'} : w.acting ev = none → (w.store id).deletion = none →
      u.cell = (w.store id).cell → enrollmentRequest (w.relay X) v u = .ok (x, u') →
      st' = u'.cell.store → Writes X w id ev st'
  | erased : (w.store id).pending = true → st' = (w.store id).cleared → Writes X w id ev st'

section Steps

variable {X : Crypto} {w : World} {id : String} {ev : Event} {st st' : Store}

theorem Writes.of_keeps {α : Type} {m : Tx α} {o : Oracle} {x : α} {b : Cell}
    (hm : Keeps (recordFrame (fun _ => False) fun _ => False) m)
    (h : m.run o (w.store id) = .ok (x, b)) : Writes X w id ev b.store := by
  obtain ⟨u, u', hu, hrun, rfl⟩ := run_ok h
  obtain ⟨ho, hf⟩ := hm _ _ _ hrun
  rw [hu] at ho hf
  exact .kept (fun q => ho q not_false) fun r => hf r not_false

theorem Writes.still : Writes X w id ev (w.store id) := .kept (fun _ => rfl) fun _ => rfl

theorem noticeStore_writes {R : Relay} {o : Oracle}
    (h : World.noticeStore R o (w.store id) = .ok st') : Writes X w id ev st' := by
  have hF := recordFrame_aside (fun _ => False) fun _ => False
  unfold World.noticeStore at h
  split at h
  · obtain ⟨⟨u, b⟩, hrun, h⟩ := Check.bind_ok.mp h
    obtain rfl := Check.pure_ok.mp h
    exact .of_keeps ((hF.notice R).keeps (hF.save R)) hrun
  · obtain rfl := Except.ok.inj h
    exact .still

theorem expireStore_writes {R : Relay} {o : Oracle} {t : Nat}
    (h : World.expireStore R o t (w.store id) = .ok st') : Writes X w id ev st' := by
  have hF := recordFrame_aside (fun _ => False) fun _ => False
  unfold World.expireStore at h
  split at h
  · obtain rfl := Except.ok.inj h
    exact .still
  · split at h
    · obtain rfl := Except.ok.inj h
      exact .still
    · obtain ⟨⟨u, b⟩, hrun, h⟩ := Check.bind_ok.mp h
      obtain rfl := Check.pure_ok.mp h
      exact .of_keeps (.bind hF.expire fun _ => hF.check _) hrun

theorem finish_writes {t : Nat} (h : (w.store id).finish X t = .ok st') : Writes X w id ev st' := by
  unfold Store.finish at h
  split at h
  · obtain rfl := Except.ok.inj h
    exact .still
  · split at h
    · obtain ⟨_, -, h⟩ := Check.bind_ok.mp h
      obtain rfl := Check.pure_ok.mp h
      exact .kept (fun _ => rfl) fun _ => rfl
    · obtain rfl := Except.ok.inj h
      exact .still

/-- What one step of the relay does to the outcomes and offers of a chain. -/
theorem Txn.writes (h : Txn X w id ev st') : Writes X w id ev st' := by
  have hF := recordFrame_aside (fun _ => False) fun _ => False
  cases h with
  | kept => exact .still
  | executed ht hid =>
      obtain he | ⟨reply, b, hdel, hrun, he⟩ := stepExecute_run (w.relay X) _ _ (w.store id)
      · rw [he]
        exact .still
      · obtain ⟨u, u', hu, hexecuted, rfl⟩ := run_ok hrun
        refine .executed ⟨?_, by simp [World.uploading, ht], ?_, hdel, hu, hexecuted⟩ he
        · simp only [World.acting, ht, Except.toOption, Option.map_some]
        · exact hid
  | item ht hid hrem =>
      obtain he | ⟨x, b, -, hrun, he⟩ := stepItem_run (w.relay X) _ _ _ _ _ _ (w.store id)
      · rw [he]
        exact .still
      · rw [he]
        exact .of_keeps (uploadItem_keeps _ _ _ _) hrun
  | itemAudit ht _ =>
      unfold stepItemAudit
      split
      · exact .still
      · split
        · exact .still
        · split
          · exact .still
          · rename_i hrun
            exact .of_keeps ((hF.auditReject _ _ _).keeps (hF.save _)) hrun
  | audit ht _ =>
      unfold stepAudit
      split
      · exact .still
      · split
        · exact .still
        · rename_i hrun
          exact .of_keeps ((hF.auditReject _ _ _).keeps (hF.save _)) hrun
  | erased ht =>
      by_cases hp : (w.store id).pending = true
      · exact .erased hp (if_pos hp)
      · rw [Store.erase, if_neg hp]
        exact .still
  | finished ht h => exact finish_writes h
  | notice ht h => exact noticeStore_writes h
  | enrollment _ h =>
      obtain ⟨u, u', hu, hm, rfl⟩ := run_ok h
      simp only [enrollmentCandidate, bind_ok, lift_ok, look_ok, failIf_ok, require_ok, check_ok,
        pure_ok] at hm
      obtain ⟨_, _, ⟨-, rfl⟩, _, _, ⟨rfl, rfl⟩, _, _, ⟨hdel, rfl⟩, _, _, ⟨-, rfl⟩, _, _,
        ⟨-, rfl⟩, _, u₁, hreq, _, _, ⟨-, rfl⟩, -, rfl⟩ := hm
      rw [hu] at hdel
      exact .answered (by simp [World.acting]) (by simpa using hdel) hu hreq rfl
  | expired h => exact expireStore_writes h

/-- A recorded outcome was recorded by the request that has its name. -/
theorem Writes.outcome (h : Writes X w id ev st') {q : OutcomeScope × String} {o : OutcomeRow}
    (hnew : st'.outcomes.find? q = some o) (hold : (w.store id).outcomes.find? q ≠ some o) :
    ∃ call reply u u', Executing X w id ev call reply u u' ∧ st' = u'.cell.store ∧
      call.Records X q := by
  cases h with
  | kept ho _ => exact absurd ((ho q).symm.trans hnew) hold
  | executed he hst =>
      refine ⟨_, _, _, _, he, hst, ?_⟩
      by_contra hnot
      have hsame := (executeTx_keeps _ _ _ _ _ he.executed).1 q hnot
      rw [he.start] at hsame
      exact hold (hsame.symm.trans (hst ▸ hnew))
  | answered _ _ hu hreq hst =>
      obtain ⟨row, -, hcell | ⟨-, -, hcell⟩⟩ := enrollmentRequest_ok _ hreq
      · rw [hst, hcell, hu] at hnew
        exact absurd hnew hold
      · rw [hst, hcell, hu] at hnew
        exact absurd hnew hold
  | erased _ he =>
      rw [he] at hnew
      cases hnew

end Steps

/-! ## Records -/

section Records

variable {X : Crypto} {st : Store} {scope : OutcomeScope} {id : String} {v r : Json}

theorem recorded_iff : st.Recorded X scope id v r ↔
    ∃ o, st.outcomes.find? (scope, id) = some o ∧ o.digest = X.objectHash v ∧ o.response = r := by
  unfold Store.Recorded Store.outcomes?
  cases st.outcomes.find? (scope, id) with
  | none => simp
  | some o => by_cases hd : o.digest = X.objectHash v <;> simp [hd]

theorem unrecorded_iff : st.outcomes? X scope id v = .ok none ↔
    st.outcomes.find? (scope, id) = none := by
  unfold Store.outcomes?
  cases st.outcomes.find? (scope, id) with
  | none => simp
  | some o => by_cases hd : o.digest = X.objectHash v <;> simp [hd]

end Records

/-! ## Runs -/

/-- The event after `es` executes `call` on chain `id`, in the run that goes
on as `es'`. -/
structure ExecutedIn (X : Crypto) (cfg : RelayConfig) (run es : List Event) (ev : Event)
    (es' : List Event) (id : String) (call : Call) (reply : Reply) (u u' : Work) : Prop where
  run : run = es ++ ev :: es'
  executing : Executing X (World.after X cfg es) id ev call reply u u'
  stored : storeAfter X cfg (es ++ [ev]) id = u'.cell.store

/-- Every recorded outcome can be traced to the transaction that wrote it. -/
theorem outcome_origin (X : Crypto) (cfg : RelayConfig) (run : List Event) {id : String}
    {q : OutcomeScope × String} {o : OutcomeRow}
    (h : (storeAfter X cfg run id).outcomes.find? q = some o) :
    ∃ es ev es' call reply u u', ExecutedIn X cfg run es ev es' id call reply u u' ∧
      call.Records X q ∧ u.cell.store.outcomes.find? q ≠ some o ∧
      u'.cell.store.outcomes.find? q = some o := by
  obtain ⟨es, ev, es', hrun, hold, hnew⟩ := run_turns
    (P := fun w : World => (w.store id).outcomes.find? q = some o)
    (fun hfirst => by cases hfirst) h
  obtain ⟨call, reply, u, u', he, hst, hrec⟩ :=
    (step_txn X (World.after X cfg es) ev id).writes.outcome hnew hold
  refine ⟨es, ev, es', call, reply, u, u', ⟨hrun, he, ?_⟩, hrec, ?_, hst ▸ hnew⟩
  · rw [storeAfter, World.after, run_snoc]
    exact hst
  · rw [he.start]
    exact hold

/-- The body of a request that a transaction of the run was about. -/
def Received (X : Crypto) (cfg : RelayConfig) (run : List Event) (v : Json) : Prop :=
  ∃ es ev es' call, run = es ++ ev :: es' ∧ (World.after X cfg es).acting ev = some call ∧
    call.value = v

/-- Two bodies of the run, one of them `v`, have the same hash. -/
def Collides (X : Crypto) (cfg : RelayConfig) (run : List Event) (v : Json) : Prop :=
  ∃ v', Received X cfg run v' ∧ v' ≠ v ∧ X.objectHash v' = X.objectHash v

end PallaSync
