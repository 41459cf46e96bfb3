import PallaSync.Permanence
import PallaSync.Roster

/-!
# Retries

A request that changes the chain records its response under the identifier of
what it does, and a repetition is answered from there. Each handler looks its
record up at a place of its own: what it checks before, a repetition has to
pass again. `exact_retry` says in which later states it does.
-/

namespace PallaSync

open Atomic Machine

/-! ## Recorded responses -/

/-- The request with payload `v` was answered with `r`, and that is on record. -/
def Store.Recorded (X : Crypto) (st : Store) (scope : OutcomeScope) (id : String) (v r : Json) :
    Prop :=
  st.outcomes? X scope id v = .ok (some r)

/-- No outcome is lost, and no offer or the request it was given. -/
structure Store.Remembered (st st' : Store) : Prop where
  outcomes : ∀ q o, st.outcomes.find? q = some o → st'.outcomes.find? q = some o
  offers : ∀ q row, st.offers.find? q = some row →
    ∃ row', st'.offers.find? q = some row' ∧ row.Stands row'

/-- Every successful run of `m` leaves the response that `body` reads off its
result on record. -/
def Records {α : Type} (X : Crypto) (scope : OutcomeScope) (id : String) (v : Json)
    (body : α → Json) (m : Tx α) : Prop :=
  ∀ w x w', m w = .ok (x, w') → w'.cell.store.Recorded X scope id v (body x)

section Records

variable {α β : Type} {X : Crypto} {scope : OutcomeScope} {id : String} {v r : Json}
  {st st' st'' : Store} {body : α → Json}

namespace Store.Remembered

theorem refl (st : Store) : st.Remembered st :=
  ⟨fun _ _ h => h, fun _ row h => ⟨row, h, rfl, fun _ hr => hr⟩⟩

theorem trans (h : st.Remembered st') (h' : st'.Remembered st'') : st.Remembered st'' := by
  refine ⟨fun q o ho => h'.outcomes q o (h.outcomes q o ho), fun q row hrow => ?_⟩
  obtain ⟨row', hrow', hs⟩ := h.offers q row hrow
  obtain ⟨row'', hrow'', hs'⟩ := h'.offers q row' hrow'
  exact ⟨row'', hrow'', hs'.offer.trans hs.offer, fun r hr => hs'.request r (hs.request r hr)⟩

theorem of_beside (h : Beside st st') : st.Remembered st' := ⟨h.outcomes, h.offers⟩

theorem recorded (h : st.Remembered st') (hr : st.Recorded X scope id v r) :
    st'.Recorded X scope id v r := by
  unfold Store.Recorded Store.outcomes? at hr ⊢
  split at hr
  · cases hr
  · rename_i row hrow
    rw [h.outcomes _ _ hrow]
    exact hr

end Store.Remembered

namespace Records

theorem bind {m : Tx β} {f : β → Tx α} (h : ∀ b, Records X scope id v body (f b)) :
    Records X scope id v body (m >>= f) := by
  intro w x w' hm
  obtain ⟨b, w₁, -, hf⟩ := bind_ok.mp hm
  exact h b _ _ _ hf

theorem ite {c : Prop} [Decidable c] {m k : Tx α} (hm : Records X scope id v body m)
    (hk : Records X scope id v body k) : Records X scope id v body (if c then m else k) := by
  split
  · exact hm
  · exact hk

/-- The lookup of the record, and what follows it. -/
theorem looked {k : Option Json → Tx α}
    (hagain : ∀ r w x w', k (some r) w = .ok (x, w') → body x = r ∧ w' = w)
    (hfresh : Records X scope id v body (k none)) :
    Records X scope id v body (check (fun st _ => st.outcomes? X scope id v) >>= k) := by
  intro w x w' hm
  obtain ⟨before, w₁, hcheck, hk⟩ := bind_ok.mp hm
  obtain ⟨hfound, rfl⟩ := check_ok.mp hcheck
  cases before with
  | some r =>
      obtain ⟨rfl, rfl⟩ := hagain r _ _ _ hk
      exact hfound
  | none => exact hfresh _ _ _ hk

/-- The record itself; what follows it leaves the outcomes alone. -/
theorem outcome {response : Json} {k : Unit → Tx α}
    (hk : ∀ w x w', k () w = .ok (x, w') →
      body x = response ∧ w'.cell.store.outcomes = w.cell.store.outcomes) :
    Records X scope id v body (outcome X scope id v response >>= k) := by
  intro w x w' hm
  obtain ⟨_, w₁, hout, hk'⟩ := bind_ok.mp hm
  obtain ⟨hbody, hsame⟩ := hk _ _ _ hk'
  obtain ⟨st, hst, rfl⟩ := attempt_ok.mp hout
  obtain ⟨tab, htab, rfl⟩ := Option.map_eq_some_iff.mp hst
  rw [hbody, Store.Recorded, Store.outcomes?, hsame, Table.find?_insert? htab, if_pos rfl]
  exact if_neg (not_not.mpr rfl)

end Records

/-! ## The handlers -/

section Handlers

variable (R : Relay) (auth : Auth) (v : Json)

theorem genesis_records :
    Records R.crypto .genesis (s (v.get "parameters") "chain_id") v (·.2) (genesis R v) := by
  refine .bind fun _ => .bind fun _ => .bind fun _ => .looked (fun r w x w' h => ?_) ?_
  · obtain ⟨rfl, rfl⟩ := pure_ok.mp h
    exact ⟨rfl, rfl⟩
  · refine .bind fun _ => .bind fun _ => .bind fun _ => .bind fun _ => .bind fun _ =>
      .bind fun _ => .bind fun _ => .bind fun _ => .bind fun _ => .bind fun _ => .bind fun _ =>
      .bind fun _ => .bind fun _ => .outcome fun w x w' h => ?_
    obtain ⟨_, w₁, hsave, h⟩ := bind_ok.mp h
    obtain ⟨rfl, rfl⟩ := pure_ok.mp h
    obtain ⟨cut, -, hstore, -⟩ := save_published R hsave
    exact ⟨rfl, by rw [hstore]⟩

theorem enroll_records (request : Option Json) :
    Records R.crypto .enroll (s (v.get "device_record") "device_id") v (·.2)
      (enroll R auth v request) := by
  refine .bind fun _ => .bind fun _ => .bind fun _ => .bind fun _ =>
    .looked (fun r w x w' h => ?_) ?_
  · obtain ⟨rfl, rfl⟩ := pure_ok.mp h
    exact ⟨rfl, rfl⟩
  · refine .bind fun _ => .bind fun _ => .bind fun _ => .bind fun _ =>
      .outcome fun w x w' h => ?_
    obtain ⟨rfl, rfl⟩ := pure_ok.mp h
    exact ⟨rfl, rfl⟩

theorem epoch_records (device : Option String) :
    Records R.crypto .epoch (R.crypto.objectHash (v.get "epoch")) v (·.2)
      (epoch R auth v device) := by
  refine .bind fun _ => .bind fun _ => .looked (fun r w x w' h => ?_) ?_
  · obtain ⟨rfl, rfl⟩ := pure_ok.mp h
    exact ⟨rfl, rfl⟩
  · refine .bind fun _ => .bind fun _ => .outcome fun w x w' h => ?_
    obtain ⟨rfl, rfl⟩ := pure_ok.mp h
    exact ⟨rfl, rfl⟩

theorem offer_records :
    Records R.crypto .offer (s v "request_id") v (·.2) (offer R auth v) := by
  refine .bind fun _ => .bind fun _ => .bind fun _ => .bind fun _ =>
    .looked (fun r w x w' h => ?_) ?_
  · obtain ⟨rfl, rfl⟩ := pure_ok.mp h
    exact ⟨rfl, rfl⟩
  · refine .bind fun _ => .bind fun _ => .bind fun _ => .bind fun _ => .bind fun _ =>
      .outcome fun w x w' h => ?_
    obtain ⟨rfl, rfl⟩ := pure_ok.mp h
    exact ⟨rfl, rfl⟩

theorem approve_records (id : String) (reject : Bool) :
    Records R.crypto (if reject then .rejectRequest else .approveRequest) id v (·.2)
      (approve R auth id v reject) := by
  refine .bind fun _ => .bind fun _ => .bind fun _ => .bind fun _ =>
    .looked (fun r w x w' h => ?_) ?_
  · obtain ⟨rfl, rfl⟩ := pure_ok.mp h
    exact ⟨rfl, rfl⟩
  · refine .bind fun _ => .bind fun _ => .bind fun _ => .bind fun _ => .ite (.bind fun _ => ?_)
      (.bind fun _ => ?_)
    all_goals
      refine .bind fun _ => .bind fun _ => .outcome fun w x w' h => ?_
      obtain ⟨rfl, rfl⟩ := pure_ok.mp h
      exact ⟨rfl, rfl⟩

theorem snapshot_records :
    Records R.crypto .snapshot (s (v.get "compaction") "compaction_id") v (·.2)
      (snapshot R v) := by
  refine .bind fun _ => .bind fun _ => .looked (fun r w x w' h => ?_) ?_
  · obtain ⟨rfl, rfl⟩ := pure_ok.mp h
    exact ⟨rfl, rfl⟩
  · refine .bind fun _ => .bind fun _ => .outcome fun w x w' h => ?_
    obtain ⟨rfl, rfl⟩ := pure_ok.mp h
    exact ⟨rfl, rfl⟩

theorem prune_records :
    Records R.crypto .prune (s (v.get "admin_operation") "operation_id") v (fun r => r)
      (prune R auth v) := by
  refine .bind fun _ => .bind fun _ => .looked (fun r w x w' h => ?_) ?_
  · obtain ⟨rfl, rfl⟩ := pure_ok.mp h
    exact ⟨rfl, rfl⟩
  · refine .bind fun _ => .bind fun _ => .bind fun _ => .bind fun _ => .bind fun _ =>
      .bind fun _ => .bind fun _ => .outcome fun w x w' h => ?_
    obtain ⟨rfl, rfl⟩ := pure_ok.mp h
    exact ⟨rfl, rfl⟩

theorem reseed_records :
    Records R.crypto .reseed (s (v.get "admin_operation") "operation_id") v (fun r => r)
      (reseed R auth v) := by
  refine .bind fun _ => .bind fun _ => .bind fun _ => .looked (fun r w x w' h => ?_) ?_
  · obtain ⟨rfl, rfl⟩ := pure_ok.mp h
    exact ⟨rfl, rfl⟩
  · refine .bind fun _ => .bind fun _ => .bind fun _ => .bind fun _ => .bind fun _ =>
      .bind fun _ => .bind fun _ => .bind fun _ => .bind fun _ => .bind fun _ => .bind fun _ =>
      .outcome fun w x w' h => ?_
    obtain ⟨_, w₁, hset, h⟩ := bind_ok.mp h
    obtain ⟨rfl, rfl⟩ := pure_ok.mp h
    obtain rfl := setStore_ok.mp hset
    exact ⟨rfl, rfl⟩

end Handlers

end Records

/-! ## Repetitions -/

/-- The endpoints that record their responses. -/
def Route.recorded : Route → Bool
  | .genesis | .enroll | .approve | .reject | .epochsPost | .revoke | .offer | .snapshot | .prune
  | .reseed => true
  | _ => false

theorem Call.record_isSome (X : Crypto) (call : Call) :
    (call.record X).isSome = call.route.recorded := by
  unfold Call.record
  generalize call.route = route
  cases route <;> rfl

section Repetitions

variable {R R' : Relay} {auth auth' : Auth} {v r : Json} {w w₁ u u' : Work} {x y : Nat × Json}

theorem Auth.owns_congr (h : auth'.device = auth.device) (id : String) :
    auth'.owns id = auth.owns id := by
  rw [Auth.owns, Auth.owns, Auth.admin, Auth.admin, h]

theorem Auth.requireAdmin_congr (h : auth'.device = auth.device) :
    auth'.requireAdmin = auth.requireAdmin := by
  rw [Auth.requireAdmin, Auth.requireAdmin, Auth.admin, Auth.admin, h]

theorem Store.Recorded.found {X : Crypto} {scope : OutcomeScope} {id : String}
    (h : u.cell.store.Recorded X scope id v r) :
    check (fun st _ => st.outcomes? X scope id v) u = .ok (some r, u) :=
  check_ok.mpr ⟨h, rfl⟩

theorem genesis_again (hX : R'.crypto = R.crypto) (hfirst : genesis R v w = .ok (x, w₁))
    (hrec : u.cell.store.Recorded R.crypto .genesis (s (v.get "parameters") "chain_id") v r) :
    genesis R' v u = .ok ((200, r), u) := by
  simp only [genesis, bind_ok, lift_ok] at hfirst
  obtain ⟨_, _, ⟨hfields, rfl⟩, _, _, ⟨hvalid, rfl⟩, _, _, ⟨hverify, rfl⟩, -⟩ := hfirst
  rw [← hX] at hfields hvalid hverify hrec
  exact (bind_of_ok (lift_ok.mpr ⟨hfields, rfl⟩)).trans
    ((bind_of_ok (lift_ok.mpr ⟨hvalid, rfl⟩)).trans
      ((bind_of_ok (lift_ok.mpr ⟨hverify, rfl⟩)).trans (bind_of_ok hrec.found)))

/-- A repeated enrollment passes the window again, and nothing else. -/
theorem enroll_again (hX : R'.crypto = R.crypto) (hauth : auth'.device = auth.device)
    (hfirst : enroll R auth v none w = .ok (x, w₁))
    (hrec : u.cell.store.Recorded R.crypto .enroll (s (v.get "device_record") "device_id") v r) :
    enroll R' auth' v none u = .ok (y, u') ↔
      enrollmentWindow u.cell.store u.cell.chain = .ok () ∧ y = (200, r) ∧ u' = u := by
  simp only [enroll, bind_ok, lift_ok, check_ok] at hfirst
  obtain ⟨_, _, ⟨hfields, rfl⟩, _, _, ⟨hadmin, rfl⟩, _, _, ⟨-, rfl⟩, _, _, ⟨hvalid, rfl⟩, -⟩ :=
    hfirst
  rw [← hX] at hfields hvalid hrec
  rw [← Auth.requireAdmin_congr hauth] at hadmin
  constructor
  · intro h
    simp only [enroll, bind_ok, lift_ok, check_ok] at h
    obtain ⟨_, _, ⟨-, rfl⟩, _, _, ⟨-, rfl⟩, _, _, ⟨hwindow, rfl⟩, _, _, ⟨-, rfl⟩, before, _,
      ⟨hbefore, rfl⟩, h⟩ := h
    obtain rfl := Except.ok.inj (hbefore.symm.trans hrec)
    obtain ⟨rfl, rfl⟩ := pure_ok.mp h
    exact ⟨hwindow, rfl, rfl⟩
  · rintro ⟨hwindow, rfl, rfl⟩
    exact (bind_of_ok (lift_ok.mpr ⟨hfields, rfl⟩)).trans
      ((bind_of_ok (lift_ok.mpr ⟨hadmin, rfl⟩)).trans
        ((bind_of_ok (check_ok.mpr ⟨hwindow, rfl⟩)).trans
          ((bind_of_ok (lift_ok.mpr ⟨hvalid, rfl⟩)).trans (bind_of_ok hrec.found))))

theorem epoch_again {device : Option String} (hX : R'.crypto = R.crypto)
    (hfirst : epoch R auth v device w = .ok (x, w₁))
    (hrec : u.cell.store.Recorded R.crypto .epoch (R.crypto.objectHash (v.get "epoch")) v r) :
    epoch R' auth' v device u = .ok ((200, r), u) := by
  simp only [epoch, bind_ok, lift_ok] at hfirst
  obtain ⟨_, _, ⟨hfields, rfl⟩, _, _, ⟨hvalid, rfl⟩, -⟩ := hfirst
  rw [← hX] at hfields hvalid hrec
  exact (bind_of_ok (lift_ok.mpr ⟨hfields, rfl⟩)).trans
    ((bind_of_ok (lift_ok.mpr ⟨hvalid, rfl⟩)).trans (bind_of_ok hrec.found))

/-- A repeated offer needs the policy that let it pass. -/
theorem offer_again (hX : R'.crypto = R.crypto) (hauth : auth'.device = auth.device)
    (hfirst : offer R auth v w = .ok (x, w₁))
    (hrec : u.cell.store.Recorded R.crypto .offer (s v "request_id") v r)
    (hpolicy : u.cell.chain.policy = w.cell.chain.policy) :
    offer R' auth' v u = .ok ((200, r), u) := by
  simp only [offer, bind_ok, lift_ok, failIf_ok, chain_ok] at hfirst
  obtain ⟨_, _, ⟨hfields, rfl⟩, _, _, ⟨hdevice, rfl⟩, _, _, ⟨rfl, rfl⟩, _, _, ⟨hpeer, rfl⟩, -⟩ :=
    hfirst
  rw [← hX] at hfields hrec
  rw [← hpolicy] at hpeer
  have hdevice' : auth'.admin = false := by rwa [Auth.admin, hauth]
  exact (bind_of_ok (lift_ok.mpr ⟨hfields, rfl⟩)).trans
    ((bind_of_ok (a := ()) (failIf_ok.mpr ⟨hdevice', rfl⟩)).trans
      ((bind_of_ok (chain_ok.mpr ⟨rfl, rfl⟩)).trans
        ((bind_of_ok (a := ()) (failIf_ok.mpr ⟨hpeer, rfl⟩)).trans (bind_of_ok hrec.found))))

/-- A repeated decision finds the offer and the request it was about. -/
theorem approve_again {id : String} {reject : Bool} (hX : R'.crypto = R.crypto)
    (hauth : auth'.device = auth.device)
    (hfirst : approve R auth id v reject w = .ok (x, w₁))
    (hkept : w.cell.store.Remembered u.cell.store)
    (hrec : u.cell.store.Recorded R.crypto
      (if reject then .rejectRequest else .approveRequest) id v r) :
    approve R' auth' id v reject u = .ok ((200, r), u) := by
  simp only [approve, bind_ok, look_ok, require_ok, failIf_ok] at hfirst
  obtain ⟨_, _, ⟨rfl, rfl⟩, row, _, ⟨hrow, rfl⟩, request, _, ⟨hrequest, rfl⟩, _, _,
    ⟨howns, rfl⟩, -⟩ := hfirst
  obtain ⟨row', hrow', hstands⟩ := hkept.offers _ _ hrow
  rw [← hX] at hrec
  rw [← Auth.owns_congr hauth, ← hstands.offer] at howns
  exact (bind_of_ok (look_ok.mpr ⟨rfl, rfl⟩)).trans
    ((bind_of_ok (require_ok.mpr ⟨hrow', rfl⟩)).trans
      ((bind_of_ok (require_ok.mpr ⟨hstands.request _ hrequest, rfl⟩)).trans
        ((bind_of_ok (a := ()) (failIf_ok.mpr ⟨howns, rfl⟩)).trans (bind_of_ok hrec.found))))

theorem snapshot_again (hX : R'.crypto = R.crypto) (hfirst : snapshot R v w = .ok (x, w₁))
    (hrec : u.cell.store.Recorded R.crypto .snapshot (s (v.get "compaction") "compaction_id")
      v r) : snapshot R' v u = .ok ((200, r), u) := by
  simp only [snapshot, bind_ok, lift_ok] at hfirst
  obtain ⟨_, _, ⟨hfields, rfl⟩, _, _, ⟨hvalid, rfl⟩, -⟩ := hfirst
  rw [← hX] at hfields hvalid hrec
  exact (bind_of_ok (lift_ok.mpr ⟨hfields, rfl⟩)).trans
    ((bind_of_ok (lift_ok.mpr ⟨hvalid, rfl⟩)).trans (bind_of_ok hrec.found))

theorem prune_again {z : Json} (hX : R'.crypto = R.crypto) (hauth : auth'.device = auth.device)
    (hfirst : prune R auth v w = .ok (z, w₁))
    (hrec : u.cell.store.Recorded R.crypto .prune (s (v.get "admin_operation") "operation_id")
      v r) : prune R' auth' v u = .ok (r, u) := by
  simp only [prune, bind_ok, lift_ok] at hfirst
  obtain ⟨_, _, ⟨hadmin, rfl⟩, _, _, ⟨hfields, rfl⟩, -⟩ := hfirst
  rw [← hX] at hfields hrec
  rw [← Auth.requireAdmin_congr hauth] at hadmin
  exact (bind_of_ok (lift_ok.mpr ⟨hadmin, rfl⟩)).trans
    ((bind_of_ok (lift_ok.mpr ⟨hfields, rfl⟩)).trans (bind_of_ok hrec.found))

theorem reseed_again {z : Json} (hX : R'.crypto = R.crypto) (hauth : auth'.device = auth.device)
    (hfirst : reseed R auth v w = .ok (z, w₁))
    (hrec : u.cell.store.Recorded R.crypto .reseed (s (v.get "admin_operation") "operation_id")
      v r) : reseed R' auth' v u = .ok (r, u) := by
  simp only [reseed, bind_ok, lift_ok] at hfirst
  obtain ⟨_, _, ⟨hadmin, rfl⟩, _, _, ⟨hfields, rfl⟩, _, _, ⟨hvalid, rfl⟩, -⟩ := hfirst
  rw [← hX] at hfields hvalid hrec
  rw [← Auth.requireAdmin_congr hauth] at hadmin
  exact (bind_of_ok (lift_ok.mpr ⟨hadmin, rfl⟩)).trans
    ((bind_of_ok (lift_ok.mpr ⟨hfields, rfl⟩)).trans
      ((bind_of_ok (lift_ok.mpr ⟨hvalid, rfl⟩)).trans (bind_of_ok hrec.found)))

/-- What a handler repeats besides the record: the enrollment window. -/
theorem writeRoute_again {call : Call} {scope : OutcomeScope} {id : String}
    (hX : R'.crypto = R.crypto) (hauth : auth'.device = call.auth.device)
    (hrecord : call.record R.crypto = some (scope, id)) (hgenesis : call.route ≠ .genesis)
    (hfirst : writeRoute R call w = .ok (x, w₁)) (hkept : w.cell.store.Remembered u.cell.store)
    (hrec : u.cell.store.Recorded R.crypto scope id call.value r)
    (hpolicy : call.route = .offer → u.cell.chain.policy = w.cell.chain.policy) :
    writeRoute R' { call with auth := auth' } u = .ok (y, u') ↔
      (call.route = .enroll → enrollmentWindow u.cell.store u.cell.chain = .ok ()) ∧
        y = (200, r) ∧ u' = u := by
  obtain ⟨route, chain, param, query, v, auth⟩ := call
  have always (hroute : route ≠ .enroll)
      (h : writeRoute R' ⟨route, chain, param, query, v, auth'⟩ u = .ok ((200, r), u)) :
      writeRoute R' ⟨route, chain, param, query, v, auth'⟩ u = .ok (y, u') ↔
        (route = .enroll → enrollmentWindow u.cell.store u.cell.chain = .ok ()) ∧
          y = (200, r) ∧ u' = u := by
    rw [h]
    simp [hroute, eq_comm]
  have afterwards {m : Tx Json} (h : m u = .ok (r, u)) :
      (m >>= fun r => pure (200, r)) u = .ok (((200, r) : Nat × Json), u) := bind_of_ok h
  dsimp only at hauth hrec hpolicy hgenesis ⊢
  cases route <;> cases hrecord
  case genesis => exact absurd rfl hgenesis
  case enroll =>
    exact (enroll_again hX hauth hfirst hrec).trans
      (and_congr_left fun _ => ⟨fun h _ => h, fun h => h rfl⟩)
  case revoke => exact always (by simp) (epoch_again hX hfirst hrec)
  case epochsPost => exact always (by simp) (epoch_again hX hfirst hrec)
  case offer => exact always (by simp) (offer_again hX hauth hfirst hrec (hpolicy rfl))
  case approve => exact always (by simp) (approve_again hX hauth hfirst hkept hrec)
  case reject => exact always (by simp) (approve_again hX hauth hfirst hkept hrec)
  case snapshot => exact always (by simp) (snapshot_again hX hfirst hrec)
  case prune =>
    obtain ⟨_, _, hfirst, -⟩ := bind_ok.mp hfirst
    exact always (by simp) (afterwards (prune_again hX hauth hfirst hrec))
  case reseed =>
    obtain ⟨_, _, hfirst, -⟩ := bind_ok.mp hfirst
    exact always (by simp) (afterwards (reseed_again hX hauth hfirst hrec))

theorem writeRoute_records {call : Call} {scope : OutcomeScope} {id : String}
    (hrecord : call.record R.crypto = some (scope, id)) (hgenesis : call.route ≠ .genesis) :
    Records R.crypto scope id call.value (·.2) (writeRoute R call) := by
  have afterwards {m : Tx Json} {status : Nat}
      (h : Records R.crypto scope id call.value (fun r => r) m) :
      Records R.crypto scope id call.value (·.2) (m >>= fun r => pure (status, r)) := by
    intro w x w' hm
    obtain ⟨r, w₁, hr, hx⟩ := bind_ok.mp hm
    obtain ⟨rfl, rfl⟩ := pure_ok.mp hx
    exact h _ _ _ hr
  unfold Call.record at hrecord
  unfold writeRoute
  generalize call.route = route at hrecord hgenesis
  cases route <;> cases hrecord
  case genesis => exact absurd rfl hgenesis
  case enroll => exact enroll_records R call.auth call.value none
  case revoke => exact epoch_records R call.auth call.value _
  case epochsPost => exact epoch_records R call.auth call.value none
  case offer => exact offer_records R call.auth call.value
  case approve => exact approve_records R call.auth call.value call.param false
  case reject => exact approve_records R call.auth call.value call.param true
  case snapshot => exact snapshot_records R call.value
  case prune => exact afterwards (prune_records R call.auth call.value)
  case reseed => exact afterwards (reseed_records R call.auth call.value)

end Repetitions

/-! ## Executions -/

section Executions

variable {R R' : Relay} {call : Call} {w w' : Work} {reply : Reply}

/-- The executing transaction of a control mutation, in both directions. -/
theorem executeTx_mutation (hget : call.route.isGet = false) (hgenesis : call.route ≠ .genesis)
    (himport : call.route ≠ .importChain) :
    executeTx R call w = .ok (reply, w') ↔
      Admitted call w.cell ∧ allowed call.query [] = .ok () ∧
        ∃ x w₁, writeRoute R call w = .ok (x, w₁) ∧ sized R.crypto x.2 = .ok () ∧
          save R w₁ = .ok ((), w') ∧ w'.cell.store.quota R = .ok () ∧ reply = .json x.1 x.2 := by
  have hown : call.route.ownQuery = false := by
    cases hroute : call.route <;> simp [hroute, Route.isGet] at hget <;> rfl
  have hexport : call.route ≠ .exportChain := fun he => by simp [he, Route.isGet] at hget
  have hrun : executeTx R call w = onChain R call w := by
    unfold executeTx
    generalize call.route = route at hgenesis himport
    split
    · exact absurd rfl hgenesis
    · exact absurd rfl himport
    · rfl
  have hwritable (c : Chain) : (!c.writable && !(call.auth.admin && call.route == .reseed)) =
      false ↔ c.writable = true ∨ call.auth.admin = true ∧ call.route = .reseed := by
    rw [Bool.and_eq_false_iff, Bool.not_eq_false', Bool.not_eq_false', Bool.and_eq_true,
      beq_iff_eq]
  rw [hrun]
  simp only [onChain, dispatch, hown, hget, if_neg hexport, bind_ok, look_ok, require_ok, failIf_ok,
    check_ok, lift_ok, pure_ok, hwritable, Bool.false_eq_true, if_false]
  constructor
  · rintro ⟨_, _, ⟨rfl, rfl⟩, c, _, ⟨hc, rfl⟩, _, _, ⟨hw, rfl⟩, _, _, ⟨hstate, rfl⟩, _, _,
      ⟨hallowed, rfl⟩, x, w₁, hwrite, _, _, ⟨hsized, rfl⟩, _, _, hsave, _, _, ⟨hquota, rfl⟩,
      rfl, rfl⟩
    exact ⟨⟨⟨c, hc, hw⟩, hstate⟩, hallowed, x, w₁, hwrite, hsized, hsave, hquota, rfl⟩
  · rintro ⟨⟨⟨c, hc, hw⟩, hstate⟩, hallowed, x, w₁, hwrite, hsized, hsave, hquota, rfl⟩
    exact ⟨_, _, ⟨rfl, rfl⟩, c, _, ⟨hc, rfl⟩, (), _, ⟨hw, rfl⟩, (), _, ⟨hstate, rfl⟩, (), _,
      ⟨hallowed, rfl⟩, x, w₁, hwrite, (), _, ⟨hsized, rfl⟩, (), _, hsave, (), _, ⟨hquota, rfl⟩,
      rfl, rfl⟩

/-- What the relay signs verifies under the key it publishes. -/
def Crypto.SignsVerifiably (X : Crypto) : Prop :=
  ∀ input, X.verifySignature (X.base64Encode X.relayPublicKey) (X.base64Encode (X.sign input))
    input = true

theorem Crypto.SignsVerifiably.signRelay {X : Crypto} (h : X.SignsVerifiably) (v : Json)
    (ctx : Context) : ∃ signature, X.signRelay v ctx = some signature := by
  refine ⟨X.base64Encode (X.sign (X.signingBytes v ctx "relay_signature")), ?_⟩
  exact if_pos (h _)

theorem published_still {st : Store} {c : Chain} (hstored : st.chain = some c)
    (hpub : st.Published) {cut : HeadRow}
    (hcut : cut.key = (c.transparencyId, c.transparencyIndex)) :
    { st with chain := some c, heads := st.heads.insertIgnore cut } = st := by
  rw [Table.insertIgnore_of_found (by rw [hcut]; exact hpub _ hstored), ← hstored]

/-- A row that is stored and published is saved without a trace. -/
theorem save_still (hstored : w.cell.store.chain = some w.cell.chain)
    (hpub : w.cell.store.Published) {u : Unit} (h : save R w = .ok (u, w')) :
    w'.cell.store = w.cell.store ∧ w.cell.store.quota R = .ok () := by
  obtain ⟨cut, hcut, hstore, hquota⟩ := save_published R h
  have hsame := hstore.trans (published_still hstored hpub hcut)
  exact ⟨hsame, hsame ▸ hquota⟩

theorem save_again (hsign : R.crypto.SignsVerifiably)
    (hstored : w.cell.store.chain = some w.cell.chain) (hpub : w.cell.store.Published)
    (hquota : w.cell.store.quota R = .ok ()) : ∃ w', save R w = .ok ((), w') := by
  simp only [save, bind_ok, chain_ok, setStore_ok, now_ok, require_ok, check_ok]
  refine ⟨_, _, _, ⟨rfl, rfl⟩, (), _, rfl, _, _, ⟨rfl, rfl⟩, _, _,
    ⟨(hsign.signRelay _ _).choose_spec, rfl⟩, (), _, rfl, ?_, rfl⟩
  exact Eq.trans (congrArg _ (published_still hstored hpub rfl)) hquota

/-- A chain row and a later one of the same chain. -/
structure Chain.Follows (c c' : Chain) : Prop where
  writable : c.writable = true → c'.writable = true
  generation : c.generation ≤ c'.generation
  parameters : c'.generation = c.generation → c'.parameters = c.parameters

/-- A later store of an undeleted chain. -/
structure Store.Continued (st st' : Store) : Prop extends st.Remembered st' where
  rows : ∀ c, st.chain = some c → ∃ c', st'.chain = some c' ∧ c.Follows c'
  devices : ∀ id d, st.object .device id = some d → st'.object .device id = some d

theorem checkState_device {st : Store} {c : Chain} {auth : Auth} {route : Route} {id : String}
    (hdevice : auth.device = some id) (h : checkState st c auth route = .ok ()) :
    ∃ d, st.object .device id = some d ∧ n d "generation" = c.generation := by
  simp only [checkState, hdevice, deviceState, Check.bind_ok, Check.require_ok, Check.failIf_ok,
    bne_eq_false_iff_eq] at h
  obtain ⟨d, hd, _, hgen, -⟩ := h
  exact ⟨d, hd, hgen⟩

/-- A device that still stands sees the policy it saw. -/
theorem Store.Continued.policy {st st' : Store} {c c' : Chain} {auth auth' : Auth} {route : Route}
    {id : String} (h : st.Continued st') (hc : st.chain = some c) (hc' : st'.chain = some c')
    (hdevice : auth.device = some id) (hauth : auth'.device = auth.device)
    (hstood : checkState st c auth route = .ok ())
    (hstands : checkState st' c' auth' route = .ok ()) : c'.policy = c.policy := by
  obtain ⟨d, hd, hgen⟩ := checkState_device hdevice hstood
  obtain ⟨d', hd', hgen'⟩ := checkState_device (hauth.trans hdevice) hstands
  obtain rfl := Option.some.inj (hd'.symm.trans (h.devices id d hd))
  obtain ⟨c'', hc'', hfollows⟩ := h.rows c hc
  obtain rfl := Option.some.inj (hc'.symm.trans hc'')
  rw [Chain.policy, Chain.policy, hfollows.parameters (hgen'.symm.trans hgen)]

/-- Only devices make offers. -/
theorem offer_device {auth : Auth} {v : Json} {x : Nat × Json}
    (h : offer R auth v w = .ok (x, w')) : ∃ id, auth.device = some id := by
  simp only [offer, bind_ok, failIf_ok] at h
  obtain ⟨_, _, -, _, _, ⟨hdevice, -⟩, -⟩ := h
  exact Option.ne_none_iff_exists'.mp fun hnone => by simp [Auth.admin, hnone] at hdevice

/-- A request that was answered and comes again, in a later store in which its
signer still stands: it is answered when it passes the enrollment window and
the quota, and an answer is the first one and leaves the store alone. -/
theorem executeTx_again {st st' : Store} {auth' : Auth} {scope : OutcomeScope} {id : String}
    {w₁ u : Work} {status : Nat} {r : Json} (hsign : R'.crypto.SignsVerifiably)
    (hX : R'.crypto = R.crypto) (hauth : auth'.device = call.auth.device)
    (hrecord : call.record R.crypto = some (scope, id)) (hgenesis : call.route ≠ .genesis)
    (hw : w.cell = st.cell) (hfirst : executeTx R call w = .ok (.json status r, w₁))
    (hcont : st.Continued st') (hrec : st'.Recorded R.crypto scope id call.value r)
    (hpub : st'.Published)
    (hstands : checkState st' (st'.chain.getD .unset) auth' call.route = .ok ())
    (hu : u.cell = st'.cell) :
    ((call.route = .enroll → enrollmentWindow st' (st'.chain.getD .unset) = .ok ()) →
      st'.quota R' = .ok () →
      ∃ u', executeTx R' { call with auth := auth' } u = .ok (.json 200 r, u')) ∧
    ∀ reply u', executeTx R' { call with auth := auth' } u = .ok (reply, u') →
      (call.route = .enroll → enrollmentWindow st' (st'.chain.getD .unset) = .ok ()) ∧
        st'.quota R' = .ok () ∧ reply = .json 200 r ∧ u'.cell.store = st' := by
  have hroute : call.route.isGet = false ∧ call.route ≠ .importChain := by
    unfold Call.record at hrecord
    generalize call.route = route at hrecord ⊢
    cases route <;> cases hrecord <;> simp [Route.isGet]
  obtain ⟨hget, himport⟩ := hroute
  obtain ⟨hadm, hallowed, x, w₂, hwrite, hsized, -, -, hreply⟩ :=
    (executeTx_mutation hget hgenesis himport).mp hfirst
  cases hreply
  rw [hw] at hadm
  obtain ⟨c, hc, hwritable⟩ := hadm.stored
  obtain ⟨c', hc', hfollows⟩ := hcont.rows c hc
  have hcell : st.cell.chain = c := by rw [Store.cell, hc, Option.getD_some]
  have hcell' : st'.cell.chain = c' := by rw [Store.cell, hc', Option.getD_some]
  have hstored : u.cell.store.chain = some u.cell.chain := by rw [hu, hcell']; exact hc'
  have hpub' : u.cell.store.Published := by rw [hu]; exact hpub
  have hpolicy : call.route = .offer → u.cell.chain.policy = w.cell.chain.policy := by
    intro hoffer
    simp only [writeRoute, hoffer] at hwrite
    obtain ⟨id, hdevice⟩ := offer_device hwrite
    rw [hu, hw, hcell, hcell']
    exact hcont.policy hc hc' hdevice hauth (hcell ▸ hadm.standing) (hcell' ▸ hstands)
  have hagain (y : Nat × Json) (v : Work) :
      writeRoute R' { call with auth := auth' } u = .ok (y, v) ↔ _ :=
    writeRoute_again hX hauth hrecord hgenesis hwrite (by rw [hw, hu]; exact hcont.toRemembered)
      (by rw [hu]; exact hrec) hpolicy
  have hexecuted (reply : Reply) (u' : Work) :
      executeTx R' { call with auth := auth' } u = .ok (reply, u') ↔ _ :=
    executeTx_mutation hget hgenesis himport
  constructor
  · intro hwindow hquota
    obtain ⟨u', hsave⟩ := save_again hsign hstored hpub' (by rw [hu]; exact hquota)
    have hadm' : Admitted { call with auth := auth' } u.cell := by
      refine ⟨⟨c', by rw [hu]; exact hc', hwritable.imp hfollows.writable fun h => ⟨?_, h.2⟩⟩, ?_⟩
      · rw [Auth.admin, hauth]
        exact h.1
      · rw [hu]
        exact hstands
    have hstill := save_still hstored hpub' hsave
    refine ⟨u', (hexecuted _ _).mpr ⟨hadm', hallowed, (200, x.2), u,
      (hagain _ _).mpr ⟨by rw [hu]; exact hwindow, rfl, rfl⟩, hX ▸ hsized, hsave, ?_, rfl⟩⟩
    rw [hstill.1]
    exact hstill.2
  · intro reply u' h
    obtain ⟨-, -, y, u₁, hwrite', -, hsave, -, rfl⟩ := (hexecuted _ _).mp h
    obtain ⟨hwindow, rfl, rfl⟩ := (hagain _ _).mp hwrite'
    obtain ⟨hsame, hquota⟩ := save_still hstored hpub' hsave
    rw [hu] at hwindow hquota hsame
    exact ⟨hwindow, hquota, rfl, hsame⟩

/-- As `executeTx_again`, for the request that starts the chain: it looks at
nothing but its record. -/
theorem executeTx_genesis_again (auth' : Auth) {w₁ u : Work} {status : Nat} {r : Json}
    (hX : R'.crypto = R.crypto) (hroute : call.route = .genesis)
    (hfirst : executeTx R call w = .ok (.json status r, w₁))
    (hrec : u.cell.store.Recorded R.crypto .genesis
      (s (call.value.get "parameters") "chain_id") call.value r) :
    executeTx R' { call with auth := auth' } u = .ok (.json 200 r, u) := by
  simp only [executeTx, hroute, bind_ok, lift_ok] at hfirst ⊢
  obtain ⟨_, _, ⟨hallowed, rfl⟩, x, w₂, hgenesis, -⟩ := hfirst
  exact ⟨_, _, ⟨hallowed, rfl⟩, _, _, genesis_again hX hgenesis hrec, pure_ok.mpr ⟨rfl, rfl⟩⟩

/-- The response of an executed request is on record. -/
theorem executeTx_records {scope : OutcomeScope} {id : String} {status : Nat} {r : Json}
    (hrecord : call.record R.crypto = some (scope, id))
    (h : executeTx R call w = .ok (.json status r, w')) :
    w'.cell.store.Recorded R.crypto scope id call.value r := by
  by_cases hgenesis : call.route = .genesis
  · simp only [executeTx, hgenesis, bind_ok, lift_ok, pure_ok] at h
    obtain ⟨_, _, ⟨-, rfl⟩, x, w₁, hm, hreply, rfl⟩ := h
    cases hreply
    simp only [Call.record, hgenesis, Option.some.injEq, Prod.mk.injEq] at hrecord
    obtain ⟨rfl, rfl⟩ := hrecord
    exact genesis_records R call.value _ _ _ hm
  · have hroute : call.route.isGet = false ∧ call.route ≠ .importChain := by
      unfold Call.record at hrecord
      generalize call.route = route at hrecord ⊢
      cases route <;> cases hrecord <;> simp [Route.isGet]
    obtain ⟨-, -, x, w₁, hwrite, -, hsave, -, hreply⟩ :=
      (executeTx_mutation hroute.1 hgenesis hroute.2).mp h
    cases hreply
    have hkept := Store.Remembered.of_beside (save_beside R _ _ _ hsave)
    exact hkept.recorded (writeRoute_records hrecord hgenesis _ _ _ hwrite)

end Executions

/-! ## Runs -/

section Runs

variable {X : Crypto} {cfg : RelayConfig} {id : String} {w : World} {c c' c'' : Chain}
  {L L' : Ledger}

namespace Chain.Follows

theorem refl (c : Chain) : c.Follows c := ⟨fun h => h, Nat.le_refl _, fun _ => rfl⟩

theorem trans (h : c.Follows c') (h' : c'.Follows c'') : c.Follows c'' := by
  refine ⟨fun hw => h'.writable (h.writable hw), Nat.le_trans h.generation h'.generation,
    fun he => ?_⟩
  have hle := h.generation
  have hle' := h'.generation
  have hsame : c'.generation = c.generation := by omega
  exact (h'.parameters (he.trans hsame.symm)).trans (h.parameters hsame)

end Chain.Follows

theorem Step.writable {m : Move} (h : Step X m L L') (hm : ∀ c, m ≠ .found c)
    (hw : L.chain.writable = true) : L'.chain.writable = true := by
  by_cases ho : m.ordinary = true
  · exact (h.sameTerms ho).writable.trans hw
  · cases h with
    | setEpoch => exact hw
    | prune _ _ _ _ hc | expire _ _ _ hc => rw [hc]; exact hw
    | handoff _ he => rw [he]; exact hw
    | found _ _ => exact absurd rfl (hm _)
    | reincarnate _ _ => rfl
    | evidence hw' => exact hw'.sameTerms.writable.trans hw
    | log _ _ | enlist _ _ | partAgain | part _ | stage _ _ | revoke _ | activate _ =>
        exact absurd rfl ho

theorem Passage.follows {R : Relay} {cause : Option Call} {a : Cell}
    (h : Passage R cause a L') : a.chain.Follows L'.chain := by
  obtain ⟨ms, hsteps, hms⟩ := h.steps
  have hwritable : a.chain.writable = true → L'.chain.writable = true :=
    hsteps.preserves (P := fun M => M.chain.writable = true)
      (fun m M M' hm hstep hM => hstep.writable hm.1 hM) hms
  have kept (hp : L'.chain.parameters = a.chain.parameters) : a.chain.Follows L'.chain :=
    ⟨hwritable, Nat.le_of_eq (congrArg (n · "generation") hp.symm), fun _ => hp⟩
  cases h.lineStep with
  | same _ hp => exact kept hp
  | rotated _ _ hp _ _ => exact kept hp
  | reseeded _ _ hp _ _ =>
      have hnext : L'.chain.generation = a.chain.generation + 1 := hp.generation
      exact ⟨hwritable, by omega, fun he => absurd he (by omega)⟩

theorem store_follows (X : Crypto) (cfg : RelayConfig) (es es' : List Event) (id : String) :
    (storeAfter X cfg es id).Keeps (fun L L' => L.chain.Follows L'.chain)
      (storeAfter X cfg (es ++ es') id) :=
  ledger_keeps (K := fun L L' => L.chain.Follows L'.chain) (fun L _ => .refl L.chain)
    (fun _ _ _ _ _ _ _ _ hK hp => hK.trans hp.follows) es es'

theorem AsideStep.remembered {ev : Event} {st' : Store} (h : AsideStep X w id ev st') :
    (w.store id).Remembered st' := by
  cases h with
  | kept hb _ _ => exact .of_beside hb
  | imported _ _ _ _ _ hb => exact ⟨hb.outcomes, hb.offers⟩
  | reseeded _ _ _ hb => exact ⟨hb.outcomes, hb.offers⟩
  | uploaded hup he =>
      subst he
      exact ⟨hup.beside.outcomes, hup.beside.offers⟩

/-- Outcomes and offers stay as long as the chain is not deleted. -/
theorem store_remembered (X : Crypto) (cfg : RelayConfig) (es es' : List Event) (id : String)
    (hdel : (storeAfter X cfg (es ++ es') id).deletion = none) :
    (storeAfter X cfg es id).Remembered (storeAfter X cfg (es ++ es') id) := by
  unfold storeAfter World.after at hdel ⊢
  rw [run_append] at hdel ⊢
  refine run_keeps (I := World.Bounded cfg) (K := fun w w' : World =>
    (w'.store id).deletion = none → (w.store id).Remembered (w'.store id))
    (after_bounded X cfg es) (fun w ev h => step_bounded h ev) (fun w _ _ => .refl _)
    (fun w w' ev _ h' hK hdel' => ?_) es' hdel
  obtain ⟨hdel, -⟩ := step_acted X h' ev id hdel'
  exact (hK hdel).trans ((step_txn X w' ev id).aside hdel').remembered

theorem AsideStep.published {ev : Event} {st' : Store} (h : AsideStep X w id ev st')
    (hp : (w.store id).Published) : st'.Published := by
  cases h with
  | kept hb _ _ => exact hb.keeps_published hp
  | imported _ _ _ _ _ hb => exact hb.keeps_published hp
  | reseeded _ _ _ hb => exact hb.keeps_published hp
  | uploaded hup he =>
      subst he
      exact hup.beside.keeps_published hp

/-- The head of every stored chain row is published. -/
theorem store_published (X : Crypto) (cfg : RelayConfig) (es : List Event) (id : String) :
    (storeAfter X cfg es id).Published := by
  refine run_invariant (I := fun w : World => (w.store id).Published) (fun _ hc => (by cases hc))
    (fun w ev h => ?_) es
  obtain ha | ⟨-, he⟩ := (step_txn X w ev id).beside
  · exact ha.published h
  · rw [he]
    exact h

theorem store_continued (X : Crypto) (cfg : RelayConfig) (es es' : List Event) (id : String)
    (hdel : (storeAfter X cfg (es ++ es') id).deletion = none) :
    (storeAfter X cfg es id).Continued (storeAfter X cfg (es ++ es') id) where
  toRemembered := store_remembered X cfg es es' id hdel
  rows := ((store_follows X cfg es es' id) hdel).2
  devices did d hd := by
    obtain ⟨hdel', hkept⟩ := store_earlier X cfg es es' id hdel
    obtain ⟨o, ho, hb⟩ := object_eq_some.mp hd
    cases hc : (storeAfter X cfg es id).chain with
    | none =>
        have hbare := (store_settled X cfg es id).bare hdel' hc
        exact absurd (ho.symm.trans (hbare.objects _)) (by simp)
    | some c =>
        obtain ⟨c', -, hearlier⟩ := hkept c hc
        obtain ⟨o', ho', hb'⟩ := hearlier.grows.body (by simp [Kind.removable]) ho hb
        exact object_eq_some.mpr ⟨o', ho', hb'⟩

/-! ## Answers -/

/-- The `i`-th task answers with `r` when it is resumed. -/
def World.Answers (X : Crypto) (w : World) (i : Nat) (o : Oracle) (faults : Faults) (r : Json) :
    Prop :=
  ∃ status, (w.step X (.resume i o faults)).tasks[i]? = some (.done (.json status r))

/-- The same request again: the same signer, under another token. -/
structure Call.Repeats (call' call : Call) : Prop where
  route : call'.route = call.route
  chain : call'.chain = call.chain
  param : call'.param = call.param
  query : call'.query = call.query
  signer : call'.auth.device = call.auth.device

theorem Call.record_plain {call : Call} {k : OutcomeScope × String} (h : call.record X = some k) :
    call.route.isGet = false ∧ call.route ≠ .delete ∧ call.route ≠ .deletion ∧
      call.route.isUpload = false ∧ call.route ≠ .exportChain ∧ call.route ≠ .partGet := by
  unfold Call.record at h
  generalize call.route = route at h ⊢
  cases route <;> cases h <;> simp [Route.isGet, Route.isUpload]

/-- The transaction of a mutation, and its answer. -/
theorem stepExecute_answers {R : Relay} {o : Oracle} {call : Call} {r : Json}
    {k : OutcomeScope × String} (hrecord : call.record X = some k) (st : Store) (status : Nat) :
    (stepExecute R o call st).2 = .done (.json status r) ↔
      st.deletion = none ∧ ∃ b, (executeTx R call).run o st = .ok (.json status r, b) := by
  obtain ⟨-, hdelete, hdeletion, -⟩ := Call.record_plain hrecord
  unfold stepExecute
  cases st.deletion with
  | some d =>
      have hgone : deletedReply R.crypto d call = .error (gone d.proof) := by
        simp only [deletedReply, if_neg hdeletion, hdelete, false_and, if_false]
      simp [hgone]
  | none =>
      cases hrun : (executeTx R call).run o st with
      | error e =>
          dsimp only
          split <;> simp
      | ok x =>
          obtain ⟨reply, b⟩ := x
          simp [hdelete]

/-- A mutation is executed in one transaction, unless writes are frozen. -/
theorem step_executes {i : Nat} {o : Oracle} {faults : Faults} {call : Call} {v : Json}
    {k : OutcomeScope × String} (htask : w.tasks[i]? = some (.start call (.ok v)))
    (hrecord : ({ call with value := v } : Call).record X = some k) :
    w.step X (.resume i o faults) = match w.cfg.writeGuard (o.now 0) with
      | .error e => w.setTask i (.done (.problem e))
      | .ok _ => w.commit i call.chain
          (stepExecute (w.relay X) (o.sub 2) { call with value := v } (w.store call.chain)) := by
  obtain ⟨hget, hdelete, -, hupload, hexport, hpart⟩ := Call.record_plain hrecord
  dsimp only at hget hdelete hupload hexport hpart
  have hstart : w.step X (.resume i o faults) = w.stepStart X i call (.ok v) o faults := by
    simp only [World.step, World.stepTask, htask]
  have hcheck : startCheck (w.relay X) call (.ok v) (o.now 0) = (do
      w.cfg.writeGuard (o.now 0)
      pure { call with value := v }) := by
    have hplain : ¬((call.route.isGet || call.route == .delete) = true) := by
      simp [hget, hdelete]
    exact if_neg hplain
  have hpass : ¬((call.route = .exportChain ∨ call.route = .partGet) ∧ faults.transfers = true) :=
    fun h => h.1.elim hexport hpart
  rw [hstart, World.stepStart]
  dsimp only
  rw [hcheck]
  cases w.cfg.writeGuard (o.now 0) with
  | error e => rfl
  | ok _ =>
      show (if call.route.isUpload = true then _ else _) = _
      rw [if_neg (by simp [hupload]), if_neg hpass]

theorem step_answers {i : Nat} {o : Oracle} {faults : Faults} {call : Call} {v r : Json}
    {k : OutcomeScope × String} (htask : w.tasks[i]? = some (.start call (.ok v)))
    (hrecord : ({ call with value := v } : Call).record X = some k) :
    w.Answers X i o faults r ↔
      w.cfg.writeGuard (o.now 0) = .ok () ∧ (w.store call.chain).deletion = none ∧
        ∃ status b, (executeTx (w.relay X) { call with value := v }).run (o.sub 2)
          (w.store call.chain) = .ok (.json status r, b) := by
  have hi : i < w.tasks.length := (List.getElem?_eq_some_iff.mp htask).1
  have hlast (task : Task) : (w.tasks.set i task)[i]? = some task := by
    simp [hi]
  rw [World.Answers, step_executes htask hrecord]
  cases w.cfg.writeGuard (o.now 0) with
  | error e =>
      refine ⟨fun ⟨status, h⟩ => ?_, fun h => (by cases h.1)⟩
      cases (hlast _).symm.trans h
  | ok _ =>
      have hanswers := stepExecute_answers (R := w.relay X) (o := o.sub 2) (r := r) hrecord
        (w.store call.chain)
      constructor
      · rintro ⟨status, h⟩
        obtain ⟨hdel, b, hrun⟩ := (hanswers status).mp (Option.some.inj ((hlast _).symm.trans h))
        exact ⟨rfl, hdel, status, b, hrun⟩
      · rintro ⟨-, hdel, status, b, hrun⟩
        exact ⟨status, (hlast _).trans (congrArg some ((hanswers status).mpr ⟨hdel, b, hrun⟩))⟩

/-- What a mutation leaves, when its transaction commits. -/
theorem step_commits {i : Nat} {o : Oracle} (faults : Faults) {call : Call} {v : Json}
    {k : OutcomeScope × String} {reply : Reply} {b : Cell}
    (htask : w.tasks[i]? = some (.start call (.ok v)))
    (hrecord : ({ call with value := v } : Call).record X = some k)
    (hguard : w.cfg.writeGuard (o.now 0) = .ok ()) (hdel : (w.store call.chain).deletion = none)
    (hrun : (executeTx (w.relay X) { call with value := v }).run (o.sub 2)
      (w.store call.chain) = .ok (reply, b)) :
    (w.step X (.resume i o faults)).store call.chain = b.store := by
  rw [step_executes htask hrecord, hguard]
  show ((w.commit i call.chain _).store call.chain) = _
  rw [World.store_commit, if_pos rfl, stepExecute, hdel]
  dsimp only
  rw [hrun]

theorem run_of_ok {α : Type} {m : Tx α} {o : Oracle} {st : Store} {x : α} {u' : Work}
    (h : m { cell := st.cell, oracle := o, tick := 0 } = .ok (x, u')) :
    m.run o st = .ok (x, u'.cell) := by
  unfold Tx.run
  rw [h]

/-- A request that succeeded on one of the recording endpoints, and arrives
again, by the same signer, in any later state of the chain in which that
signer stands and writes are not frozen: it gets the first answer and leaves
the store as it is, if and only if an enrollment finds the window open once
more and what is stored is within the quota. -/
theorem exact_retry (X : Crypto) (hsign : X.SignsVerifiably) (cfg : RelayConfig)
    (es es' : List Event) {i : Nat} {o : Oracle} {faults : Faults} (j : Nat) (o' : Oracle)
    (faults' : Faults) {call call' : Call} {v r : Json} (hroute : call.route.recorded = true)
    (hfirst : (World.after X cfg es).tasks[i]? = some (.start call (.ok v)))
    (hanswer : (World.after X cfg es).Answers X i o faults r) {w : World}
    (hw : w = World.after X cfg (es ++ .resume i o faults :: es'))
    (hagain : w.tasks[j]? = some (.start call' (.ok v))) (hsame : call'.Repeats call)
    (hdel : (w.store call.chain).deletion = none)
    (hfreeze : w.cfg.writeGuard (o'.now 0) = .ok ())
    (hstands : checkState (w.store call.chain) ((w.store call.chain).chain.getD .unset) call'.auth
      call.route = .ok ()) :
    (w.Answers X j o' faults' r ∧
      (w.step X (.resume j o' faults')).store call.chain = w.store call.chain) ↔
      (call.route = .enroll →
        enrollmentWindow (w.store call.chain) ((w.store call.chain).chain.getD .unset) = .ok ()) ∧
      (call.route ≠ .genesis → (w.store call.chain).quota (w.relay X) = .ok ()) := by
  obtain ⟨⟨scope, id⟩, hrecord⟩ := Option.isSome_iff_exists.mp
    ((Call.record_isSome X { call with value := v }).trans hroute)
  obtain ⟨hguard, hdel₀, status, b, hrun⟩ := (step_answers hfirst hrecord).mp hanswer
  have hcommit := step_commits faults hfirst hrecord hguard hdel₀ hrun
  obtain ⟨u, u₁, hu, hexecuted, rfl⟩ := run_ok hrun
  have hstore : w.store call.chain =
      storeAfter X cfg (es ++ .resume i o faults :: es') call.chain :=
    congrArg (·.store call.chain) hw
  have hcont := store_continued X cfg es (.resume i o faults :: es') call.chain (hstore ▸ hdel)
  have hrec : (w.store call.chain).Recorded X scope id v r := by
    have hrecorded : (storeAfter X cfg (es ++ [.resume i o faults]) call.chain).Recorded X scope id
        v r := by
      rw [storeAfter, World.after, run_snoc]
      exact hcommit ▸ executeTx_records hrecord hexecuted
    have hkept := store_remembered X cfg (es ++ [.resume i o faults]) es' call.chain
      (by rw [List.append_assoc]; exact hstore ▸ hdel)
    rw [List.append_assoc, List.singleton_append, ← hstore] at hkept
    exact hkept.recorded hrecorded
  obtain ⟨route, chain, param, query, value, auth'⟩ := call'
  obtain ⟨rfl, rfl, rfl, rfl, hsigner⟩ := hsame
  have hanswered : w.Answers X j o' faults' r ↔ _ := step_answers hagain hrecord
  have hstep {reply : Reply} {b : Cell}
      (hrun : (executeTx (w.relay X) ⟨call.route, call.chain, call.param, call.query, v, auth'⟩).run
        (o'.sub 2) (w.store call.chain) = .ok (reply, b)) :=
    step_commits faults' hagain hrecord hfreeze hdel hrun
  dsimp only at hanswered hstep hsigner hstands
  rw [hanswered]
  by_cases hgenesis : call.route = .genesis
  · simp only [Call.record, hgenesis, Option.some.injEq, Prod.mk.injEq] at hrecord
    obtain ⟨rfl, rfl⟩ := hrecord
    have hroute' : ({ call with value := v } : Call).route = .genesis := hgenesis
    have hX : (w.relay X).crypto = ((World.after X cfg es).relay X).crypto := rfl
    have hrun' : (executeTx (w.relay X) _).run (o'.sub 2) (w.store call.chain) = _ :=
      run_of_ok (executeTx_genesis_again auth' hX hroute' hexecuted hrec)
    exact ⟨fun _ => ⟨fun h => absurd (hgenesis.symm.trans h) (by simp), fun h => absurd hgenesis h⟩,
      fun _ => ⟨⟨hfreeze, hdel, _, _, hrun'⟩, hstep hrun'⟩⟩
  · have hpub : (w.store call.chain).Published := by
      rw [hstore]
      exact store_published X cfg _ call.chain
    have hX : (w.relay X).crypto = ((World.after X cfg es).relay X).crypto := rfl
    have hsigner' : auth'.device = ({ call with value := v } : Call).auth.device := hsigner
    have hexecutes (u' : Work) (hu' : u'.cell = (w.store call.chain).cell) :=
      executeTx_again hsign hX hsigner' hrecord hgenesis hu hexecuted (hstore ▸ hcont) hrec hpub
        hstands hu'
    constructor
    · rintro ⟨⟨-, -, status', b, hrun'⟩, -⟩
      obtain ⟨u', u₂, hu', hex, rfl⟩ := run_ok hrun'
      obtain ⟨hwindow, hquota, -, -⟩ := (hexecutes u' hu').2 _ _ hex
      exact ⟨hwindow, fun _ => hquota⟩
    · rintro ⟨hwindow, hquota⟩
      obtain ⟨u', hex⟩ := (hexecutes ⟨(w.store call.chain).cell, o'.sub 2, 0⟩ rfl).1 hwindow
        (hquota hgenesis)
      have hsame := ((hexecutes _ rfl).2 _ _ hex).2.2.2
      have hrun' := run_of_ok hex
      exact ⟨⟨hfreeze, hdel, _, _, hrun'⟩, (hstep hrun').trans hsame⟩

end Runs

namespace Sample

/-- The request that task `i` is about to execute. -/
def startedCall (w : World) (i : Nat) : Option Call :=
  match w.tasks[i]? with
  | some (.start call (.ok v)) => some { call with value := v }
  | _ => none

theorem startedCall_some {w : World} {i : Nat} {call : Call} (h : startedCall w i = some call) :
    ∃ call' v, w.tasks[i]? = some (.start call' (.ok v)) ∧ call = { call' with value := v } := by
  unfold startedCall at h
  split at h
  · rename_i call' v htask
    cases h
    exact ⟨call', v, htask, rfl⟩
  · cases h

/-- What task `i` answered. -/
def answered (w : World) (i : Nat) : Option Json :=
  match w.tasks[i]? with
  | some (.done (.json _ r)) => some r
  | _ => none

theorem answers_iff {w : World} {i : Nat} {o : Oracle} {r : Json} :
    w.Answers crypto i o .none r ↔
      answered (w.step crypto (.resume i o .none)) i = some r := by
  unfold World.Answers answered
  split
  · rename_i htask
    simp [htask, eq_comm]
  · rename_i hother
    simp only [reduceCtorEq, iff_false, not_exists]
    exact fun status h => hother _ _ h

/-- The admin's request that task `i` of `w` is about to execute is, in `w'`,
the one of task `j`. -/
def arrivesAgain (route : Route) (w w' : World) (i j : Nat) : Bool :=
  (startedCall w i).any fun c => (startedCall w' j).any fun c' =>
    decide (c.route = route) && decide (c'.route = route) && decide (c.chain = chainId) &&
      decide (c'.chain = chainId) && decide (c'.param = c.param) && decide (c'.query = c.query) &&
      decide (c.auth.device = none) && decide (c'.auth.device = none) && decide (c'.value = c.value)

theorem arrivesAgain_some {route : Route} {w w' : World} {i j : Nat}
    (h : arrivesAgain route w w' i j = true) : ∃ call call' v,
      w.tasks[i]? = some (.start call (.ok v)) ∧ w'.tasks[j]? = some (.start call' (.ok v)) ∧
      call.route = route ∧ call.chain = chainId ∧ call'.Repeats call ∧
      call'.auth.device = none := by
  obtain ⟨c, hc, h⟩ := (Option.any_eq_true _ _).mp h
  obtain ⟨c', hc', h⟩ := (Option.any_eq_true _ _).mp h
  obtain ⟨call, v, htask, rfl⟩ := startedCall_some hc
  obtain ⟨call', v', htask', rfl⟩ := startedCall_some hc'
  simp only [Bool.and_eq_true, decide_eq_true_eq] at h
  obtain ⟨⟨⟨⟨⟨⟨⟨⟨hroute, hroute'⟩, hchain⟩, hchain'⟩, hparam⟩, hquery⟩, hadmin⟩, hadmin'⟩, rfl⟩ := h
  exact ⟨call, call', _, htask, htask', hroute, hchain,
    ⟨hroute'.trans hroute.symm, hchain'.trans hchain.symm, hparam, hquery,
      hadmin'.trans hadmin.symm⟩, hadmin'⟩

theorem signs_verifiably : crypto.SignsVerifiably := by
  have hdecoded : ((crypto.decode (crypto.base64Encode crypto.relayPublicKey) (some 32)).isSome &&
      (crypto.decode (crypto.base64Encode (wide 64 0)) (some 64)).isSome) = true := by
    decide +kernel
  obtain ⟨hkey, hsig⟩ := Bool.and_eq_true_iff.mp hdecoded
  obtain ⟨key, hkey⟩ := Option.isSome_iff_exists.mp hkey
  obtain ⟨signature, hsig⟩ := Option.isSome_iff_exists.mp hsig
  intro input
  have hsig' : crypto.decode (crypto.base64Encode (crypto.sign input)) (some 64) =
    some signature := hsig
  simp only [Crypto.verifySignature, hkey, hsig']
  rfl

/-- The rotation of `rotationRun` comes again after the chain was staged. -/
def repeatedRotation : List Event :=
  perform 2 2 (importRequest [epoch0, epoch1]) ++
    [.request { rotationRequest with token := .ok (token 8 none "POST" epochsPath) }
      (oracle 1500 6)]

theorem repeatedRotation_facts :
    (arrivesAgain .epochsPost (World.after crypto cfg rotationArrived)
        (World.after crypto cfg (rotationArrived ++ rotationCommit :: repeatedRotation)) 1 3 &&
      (answered ((World.after crypto cfg rotationArrived).step crypto rotationCommit) 1).isSome &&
      ((World.after crypto cfg (rotationArrived ++ rotationCommit :: repeatedRotation)).store
        chainId).deletion.isNone &&
      decide ((World.after crypto cfg (rotationArrived ++ rotationCommit ::
        repeatedRotation)).cfg.writeGuard 1500 = .ok ()) &&
      decide (((World.after crypto cfg (rotationArrived ++ rotationCommit ::
        repeatedRotation)).store chainId).quota ((World.after crypto cfg (rotationArrived ++
          rotationCommit :: repeatedRotation)).relay crypto) = .ok ())) = true := by
  decide +kernel

end Sample

/-- A rotation is repeated after the chain was staged for import. -/
theorem exact_retry_rotation : ∃ r,
    ((World.after Sample.crypto Sample.cfg
      (rotationArrived ++ rotationCommit :: Sample.repeatedRotation)).Answers
        Sample.crypto 3 (Sample.oracle 1500 7) .none r ∧
      ((World.after Sample.crypto Sample.cfg (rotationArrived ++ rotationCommit ::
        Sample.repeatedRotation)).step Sample.crypto
          (.resume 3 (Sample.oracle 1500 7) .none)).store Sample.chainId =
        storeAfter Sample.crypto Sample.cfg (rotationArrived ++ rotationCommit ::
          Sample.repeatedRotation) Sample.chainId) := by
  have hfacts := Sample.repeatedRotation_facts
  simp only [Bool.and_eq_true, decide_eq_true_eq, Option.isNone_iff_eq_none] at hfacts
  obtain ⟨⟨⟨⟨hagain, hanswer⟩, hdel⟩, hguard⟩, hquota⟩ := hfacts
  obtain ⟨call, call', v, htask, htask', hroute, hchain, hsame, hadmin⟩ :=
    Sample.arrivesAgain_some hagain
  obtain ⟨r, hr⟩ := Option.isSome_iff_exists.mp hanswer
  have hretry := exact_retry Sample.crypto Sample.signs_verifiably Sample.cfg rotationArrived
    Sample.repeatedRotation 3 (Sample.oracle 1500 7) .none (by rw [hroute]; rfl) htask
    (Sample.answers_iff.mpr hr) rfl htask' hsame (hchain ▸ hdel) hguard
    (by rw [checkState, hadmin])
  rw [hchain] at hretry
  exact ⟨r, hretry.mpr ⟨fun he => absurd (hroute.symm.trans he) (by simp), fun _ => hquota⟩⟩

namespace Sample

def immediateParameters : Json := (parameters 0 .null).set "policy" (policy "immediate" true)

/-- A chain under immediate retention starts. -/
def immediateGenesis : Request :=
  request .genesis "POST" chainPath genesisToken ""
    (genesisBody.set "parameters" immediateParameters)

def enrollmentBundle : Json := .obj [("device_record", device 2 0 0),
  ("envelopes", .arr [envelope 71 0 0 .null (some 2)])]

def devicesPath : String := chainPath ++ "/" ++ chainId ++ "/devices"

/-- The admin enrolls a second device. -/
def enrollRequest (t : Nat) : Request :=
  request .enroll "POST" devicesPath (token t none "POST" devicesPath) ""
    (enrollmentBundle.set "admin_operation"
      (adminOp 72 "approve_enrollment" 0 immediateParameters epoch0 enrollmentBundle))

/-- The rotation of a chain with two devices. -/
def rotationOfTwo : Request :=
  request .epochsPost "POST" epochsPath (token 1 none "POST" epochsPath) ""
    (rotationBody epoch0 (epochRecord 0 1 (hashOf epoch0) "scheduled" [1, 2] [] recovery1)
      [envelope 61 0 1 (hashOf epoch0) (some 1), envelope 62 0 1 (hashOf epoch0) (some 2),
        recovery1] .null)

def enrollArrived : List Event :=
  perform 0 0 immediateGenesis ++ [.request (enrollRequest 6) (oracle 1500 2)]

def enrollCommit : Event := .resume 1 (oracle 1500 3) .none

/-- The enrollment comes again after a rotation. -/
def repeatedEnrollment : List Event :=
  perform 2 2 rotationOfTwo ++ [.request (enrollRequest 7) (oracle 1500 6)]

theorem repeatedEnrollment_facts :
    (arrivesAgain .enroll (World.after crypto cfg enrollArrived)
        (World.after crypto cfg (enrollArrived ++ enrollCommit :: repeatedEnrollment)) 1 3 &&
      (answered ((World.after crypto cfg enrollArrived).step crypto enrollCommit) 1).isSome &&
      ((World.after crypto cfg (enrollArrived ++ enrollCommit :: repeatedEnrollment)).store
        chainId).deletion.isNone &&
      decide ((World.after crypto cfg (enrollArrived ++ enrollCommit ::
        repeatedEnrollment)).cfg.writeGuard 1500 = .ok ()) &&
      (answered ((World.after crypto cfg (enrollArrived ++ enrollCommit ::
        repeatedEnrollment)).step crypto (.resume 3 (oracle 1500 7) .none)) 3).isNone) = true := by
  decide +kernel

end Sample

/-- The admin's enrollment of a device succeeds, the chain rotates, and the
same enrollment is refused: no handoff of the previous epoch opens the window
that stands before the record. -/
theorem retried_enrollment_refused : ∃ es es' i j o o' call call' v r w,
    w = World.after Sample.crypto Sample.cfg (es ++ .resume i o .none :: es') ∧
    call.route = .enroll ∧
    (World.after Sample.crypto Sample.cfg es).tasks[i]? = some (.start call (.ok v)) ∧
    (World.after Sample.crypto Sample.cfg es).Answers Sample.crypto i o .none r ∧
    w.tasks[j]? = some (.start call' (.ok v)) ∧ call'.Repeats call ∧
    (w.store call.chain).deletion = none ∧ w.cfg.writeGuard (o'.now 0) = .ok () ∧
    checkState (w.store call.chain) ((w.store call.chain).chain.getD .unset) call'.auth
      call.route = .ok () ∧
    ¬w.Answers Sample.crypto j o' .none r := by
  have hfacts := Sample.repeatedEnrollment_facts
  simp only [Bool.and_eq_true, decide_eq_true_eq, Option.isNone_iff_eq_none] at hfacts
  obtain ⟨⟨⟨⟨hagain, hanswer⟩, hdel⟩, hguard⟩, hrefused⟩ := hfacts
  obtain ⟨call, call', v, htask, htask', hroute, hchain, hsame, hadmin⟩ :=
    Sample.arrivesAgain_some hagain
  obtain ⟨r, hr⟩ := Option.isSome_iff_exists.mp hanswer
  refine ⟨_, _, 1, 3, Sample.oracle 1500 3, Sample.oracle 1500 7, call, call', v, r, _, rfl, hroute,
    htask, Sample.answers_iff.mpr hr, htask', hsame, hchain ▸ hdel, hguard,
    by rw [checkState, hadmin], fun h => ?_⟩
  have hsome : Sample.answered _ 3 = some r := Sample.answers_iff.mp h
  exact absurd (hrefused.symm.trans hsome) (by simp)

end PallaSync
