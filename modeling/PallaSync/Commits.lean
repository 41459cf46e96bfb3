import PallaSync.Histories

/-!
# What a transaction can do to a chain

The stores of the relay change by committed transactions only, one chain at a
time or, in the maintenance transactions, every chain by the same share.
`Commit` lists what such a transaction can be; `step_commit` says that every
step of the relay leaves a chain's store alone or is one of these. From it
follow the two rules the later results use: what every commit preserves holds
of every reachable store (`store_invariant`), and likewise for what an
earlier and a later store of one run have in common (`store_keeps`).
-/

namespace PallaSync

open Atomic

/-! ## The executing transaction of a request -/

/-- The device a revocation names in its path. -/
def Call.targetDevice (call : Call) : Option String :=
  if call.route = .revoke then some call.param else none

/-- A control mutation, before it is saved. -/
inductive Mutated (R : Relay) (call : Call) (a b : Cell) : Prop where
  | still : Still a b → Mutated R call a b
  | enrolled {request mid} : call.route = .enroll ∨ call.route = .approve →
      Enrolled R call.auth call.value request a mid → Still mid b → Mutated R call a b
  | rotated : call.route = .epochsPost ∨ call.route = .revoke →
      Rotated R call.auth call.value call.targetDevice a b → Mutated R call a b
  | acknowledged : call.route = .ack →
      Acknowledged R call.auth call.param call.value a b → Mutated R call a b
  | snapshotted : call.route = .snapshot → Snapshotted R call.value a b → Mutated R call a b
  | pruned {comp rows expired mid} : call.route = .prune → call.auth.requireAdmin = .ok () →
      Pruned R call.value comp rows expired a mid b → Mutated R call a b
  | reseeded {imported c mid} : call.route = .reseed → call.auth.requireAdmin = .ok () →
      Reseeded R call.value imported c a mid b → Mutated R call a b
  | deleted {d} : call.route = .delete → b.store.deletion = some d → d.completedAt = .null →
      d.Keyed → Mutated R call a b

theorem writeRoute_ok {R : Relay} {call : Call} {w w' : Work} {r : Nat × Json}
    (h : writeRoute R call w = .ok (r, w')) : Mutated R call w.cell w'.cell := by
  unfold writeRoute at h
  generalize hroute : call.route = route at h
  cases route
  case enroll =>
    obtain hw | hd := enroll_ok h
    · exact .still (.of_eq hw)
    · exact .enrolled (.inl hroute) hd (.refl _)
  case epochsPost =>
    obtain hw | hd := epoch_ok h
    · exact .still (.of_eq hw)
    · have htarget : call.targetDevice = none := by rw [Call.targetDevice, hroute, if_neg (by simp)]
      exact .rotated (.inl hroute) (htarget ▸ hd)
  case revoke =>
    obtain hw | hd := epoch_ok h
    · exact .still (.of_eq hw)
    · have htarget : call.targetDevice = some call.param := by
        rw [Call.targetDevice, if_pos hroute]
      exact .rotated (.inr hroute) (htarget ▸ hd)
  case offer => exact .still (.of_core (offer_stays R _ _ _ _ _ h))
  case approve =>
    obtain hs | ⟨-, request, mid, hd, hs⟩ := approve_ok h
    · exact .still hs
    · exact .enrolled (.inr hroute) hd hs
  case reject =>
    obtain hs | ⟨hreject, -⟩ := approve_ok h
    · exact .still hs
    · cases hreject
  case ack =>
    simp only [bind_ok, pure_ok] at h
    obtain ⟨_, _, h, -, rfl⟩ := h
    exact .acknowledged hroute (ack_ok h)
  case snapshot =>
    obtain hw | hd := snapshot_ok h
    · exact .still (.of_eq hw)
    · exact .snapshotted hroute hd
  case prune =>
    simp only [bind_ok, pure_ok] at h
    obtain ⟨_, _, h, -, rfl⟩ := h
    obtain hw | ⟨comp, rows, expired, mid, hadmin, hd⟩ := prune_ok h
    · exact .still (.of_eq hw)
    · exact .pruned hroute hadmin hd
  case reseed =>
    simp only [bind_ok, pure_ok] at h
    obtain ⟨_, _, h, -, rfl⟩ := h
    obtain ⟨hadmin, hw | ⟨imported, c, mid, hd⟩⟩ := reseed_ok h
    · exact .still (.of_eq hw)
    · exact .reseeded hroute hadmin hd
  case delete =>
    simp only [bind_ok, pure_ok] at h
    obtain ⟨_, _, h, -, rfl⟩ := h
    obtain ⟨d, hd, hp, hk⟩ := delete_ok h
    exact .deleted hroute hd hp hk
  all_goals exact (throw_ok.mp h).elim

/-- A request on a chain that is there: writable, or re-seeded by its admin. -/
structure Admitted (call : Call) (a : Cell) : Prop where
  stored : ∃ c, a.store.chain = some c ∧
    (c.writable = true ∨ call.auth.admin = true ∧ call.route = .reseed)
  standing : checkState a.store a.chain call.auth call.route = .ok ()

inductive Executed (R : Relay) (call : Call) (a b : Cell) : Prop where
  | begun {c} : call.route = .genesis → Begun R call.value c a b → Executed R call a b
  | repeated : call.route = .genesis → Still a b → Executed R call a b
  | imported {mid} : call.route = .importChain → call.auth.requireAdmin = .ok () →
      Imported R call.value a mid b → Executed R call a b
  | read : call.route.isGet = true → Admitted call a → Still a b → Executed R call a b
  | mutated {mid} : call.route.isGet = false → Admitted call a → Mutated R call a mid →
      Saved mid b → Executed R call a b

theorem onChain_ok {R : Relay} {call : Call} {w w' : Work} {r : Reply}
    (h : onChain R call w = .ok (r, w')) : Executed R call w.cell w'.cell := by
  simp only [onChain, bind_ok, look_ok, require_ok, failIf_ok, check_ok] at h
  obtain ⟨_, _, ⟨rfl, rfl⟩, c, _, ⟨hc, rfl⟩, _, _, ⟨hw, rfl⟩, _, _, ⟨hstate, rfl⟩, h⟩ := h
  have hadm : Admitted call w.cell := by
    refine ⟨⟨c, hc, ?_⟩, hstate⟩
    rw [Bool.and_eq_false_iff, Bool.not_eq_false', Bool.not_eq_false', Bool.and_eq_true,
      beq_iff_eq] at hw
    exact hw
  simp only [dispatch, bind_ok, lift_ok] at h
  obtain ⟨_, _, ⟨-, rfl⟩, h⟩ := h
  rcases ite_ok.mp h with ⟨hexp, h⟩ | ⟨-, h⟩
  · obtain ⟨lines, w₁, hread, h⟩ := bind_ok.mp h
    obtain ⟨-, rfl⟩ := pure_ok.mp h
    exact .read (by rw [hexp]; rfl) hadm (.of_core ((exportChain_reads R _ _).stays _ _ _ hread))
  · rcases ite_ok.mp h with ⟨hget, h⟩ | ⟨hget, h⟩
    · simp only [bind_ok, lift_ok, pure_ok] at h
      obtain ⟨v, w₁, hread, _, _, ⟨-, rfl⟩, -, rfl⟩ := h
      exact .read hget hadm (.of_core ((readRoute_reads R call).stays _ _ _ hread))
    · simp only [bind_ok, lift_ok, check_ok, pure_ok] at h
      obtain ⟨r, w₁, hwrite, _, _, ⟨-, rfl⟩, _, w₂, hsave, _, _, ⟨-, rfl⟩, -, rfl⟩ := h
      exact .mutated (by simpa using hget) hadm (writeRoute_ok hwrite) (save_ok hsave)

theorem executeTx_ok {R : Relay} {call : Call} {w w' : Work} {r : Reply}
    (h : executeTx R call w = .ok (r, w')) : Executed R call w.cell w'.cell := by
  unfold executeTx at h
  generalize hroute : call.route = route at h
  split at h
  · simp only [bind_ok, lift_ok, pure_ok] at h
    obtain ⟨_, _, ⟨-, rfl⟩, _, w₁, h, -, rfl⟩ := h
    obtain hw | ⟨c, hd⟩ := genesis_ok h
    · exact .repeated hroute (.of_eq hw)
    · exact .begun hroute hd
  · simp only [bind_ok, lift_ok, pure_ok] at h
    obtain ⟨_, _, ⟨hadmin, rfl⟩, _, _, ⟨-, rfl⟩, _, w₁, h, -, rfl⟩ := h
    obtain ⟨mid, hd⟩ := stage_ok h
    exact .imported hroute hadmin hd
  · exact onChain_ok h

/-- The executing transaction of a control mutation: the mutation, saved. -/
theorem executeTx_write {R : Relay} {call : Call} (hget : call.route.isGet = false)
    (hgenesis : call.route ≠ .genesis) (himport : call.route ≠ .importChain) {w w' : Work}
    {r : Reply} (h : executeTx R call w = .ok (r, w')) :
    Admitted call w.cell ∧
      ∃ x w₁, writeRoute R call w = .ok (x, w₁) ∧ save R w₁ = .ok ((), w') ∧
        r = .json x.1 x.2 := by
  have hon : onChain R call w = .ok (r, w') := by
    unfold executeTx at h
    generalize call.route = route at h hgenesis himport
    split at h
    · exact absurd rfl hgenesis
    · exact absurd rfl himport
    · exact h
  simp only [onChain, bind_ok, look_ok, require_ok, failIf_ok, check_ok] at hon
  obtain ⟨_, _, ⟨rfl, rfl⟩, c, _, ⟨hc, rfl⟩, _, _, ⟨hw, rfl⟩, _, _, ⟨hstate, rfl⟩, hon⟩ := hon
  rw [Bool.and_eq_false_iff, Bool.not_eq_false', Bool.not_eq_false', Bool.and_eq_true,
    beq_iff_eq] at hw
  refine ⟨⟨⟨c, hc, hw⟩, hstate⟩, ?_⟩
  simp only [dispatch, bind_ok, lift_ok] at hon
  obtain ⟨_, _, ⟨-, rfl⟩, hon⟩ := hon
  rcases ite_ok.mp hon with ⟨hexp, -⟩ | ⟨-, hon⟩
  · rw [hexp] at hget
    cases hget
  · rcases ite_ok.mp hon with ⟨hget', -⟩ | ⟨-, hon⟩
    · rw [hget] at hget'
      cases hget'
    · simp only [bind_ok, lift_ok, check_ok, pure_ok] at hon
      obtain ⟨x, w₁, hwrite, _, _, ⟨-, rfl⟩, _, w₂, hsave, _, _, ⟨-, rfl⟩, hr, rfl⟩ := hon
      exact ⟨x, w₁, hwrite, hsave, hr⟩

/-! ## Commits -/

/-- The cell a transaction over `st` starts from. -/
abbrev Store.cell (st : Store) : Cell := ⟨st, st.chain.getD .unset⟩

/-- The committed transactions: the requests (`cause` is the call), the
evidence of rejections and notices, and the maintenance. -/
inductive Commit (R : Relay) : Option Call → Store → Store → Prop where
  | execute {call st b} : st.deletion = none → Executed R call st.cell b →
      Commit R (some call) st b.store
  | item {call index r st mid b} : st.chain.isSome → st.deletion = none →
      uploaderActive st (st.chain.getD .unset) call.auth = .ok () →
      ItemMoved R call index r st.cell mid → Saved mid b → Commit R (some call) st b.store
  | evidence {ms st mid b} : st.chain.isSome → (∀ m ∈ ms, m.isEvidence) →
      Moves R.crypto ms st.cell mid → Saved mid b → Commit R none st b.store
  | enrollment {st b} : st.deletion = none → Still st.cell b → Commit R none st b.store
  | expire {t st b} : st.chain.isSome → Moves R.crypto ((st.due t).map .expire) st.cell b →
      Commit R none st b.store
  | erase {st} : Commit R none st st.erase
  | finish {t st st'} : st.finish R.crypto t = .ok st' → Commit R none st st'

theorem run_ok {α : Type} {m : Tx α} {o : Oracle} {st : Store} {x : α} {b : Cell}
    (h : m.run o st = .ok (x, b)) :
    ∃ w w' : Work, w.cell = st.cell ∧ m w = .ok (x, w') ∧ w'.cell = b := by
  unfold Tx.run at h
  split at h
  · rename_i y w' hm
    cases h
    exact ⟨_, w', rfl, hm, rfl⟩
  · cases h

/-! ## Steps of the relay -/

namespace World

@[simp] theorem store_setTask (w : World) (i : Nat) (task : Task) (id : String) :
    (w.setTask i task).store id = w.store id := rfl

@[simp] theorem store_spawn (w : World) (task : Task) (id : String) :
    (w.spawn task).store id = w.store id := rfl

@[simp] theorem store_desk (w : World) (desk : Desk) (id : String) :
    ({ w with desk } : World).store id = w.store id := rfl

theorem store_setStore (w : World) (id id' : String) (st : Store) :
    (w.setStore id st).store id' = if id' = id then st else w.store id' := by
  unfold World.store setStore
  split
  · rename_i hid
    have h : (w.chains.upsert (id, st)).find? id' = some (id, st) :=
      Table.find?_eq_some.mpr ⟨Table.mem_upsert.mpr (.inl rfl), hid.symm⟩
    rw [h]
    rfl
  · rename_i hid
    have h : (w.chains.upsert (id, st)).find? id' = w.chains.find? id' := by
      refine Table.find?_congr fun x hx => ?_
      rw [Table.mem_upsert]
      constructor
      · rintro (rfl | ⟨hm, -⟩)
        · exact absurd hx.symm hid
        · exact hm
      · exact fun hm => .inr ⟨hm, fun he => hid (hx ▸ he)⟩
    rw [h]

theorem store_commit (w : World) (i : Nat) (id id' : String) (r : Store × Task) :
    (w.commit i id r).store id' = if id' = id then r.1 else w.store id' :=
  store_setStore w id id' r.1

theorem store_absent {w : World} {id : String} (h : w.chains.find? id = none) :
    w.store id = .blank := by
  rw [store, h]
  rfl

/-- Every chain's store with its share `f` of a transaction. -/
abbrev mapped (w : World) (f : Nat → Store → Store) : World :=
  { w with chains := w.chains.mapIdx (fun k row => (row.1, f k row.2)) fun _ _ => rfl }

theorem store_mapped (w : World) (f : Nat → Store → Store) (id : String) :
    (w.mapped f).store id = w.store id ∨
      ∃ row k, w.chains.find? id = some row ∧ (row, k) ∈ w.chains.rows.zipIdx ∧
        (w.mapped f).store id = f k row.2 := by
  cases hrow : w.chains.find? id with
  | none =>
      refine .inl ?_
      rw [store_absent hrow, store_absent]
      exact Table.find?_mapIdx_none (f := fun k row => (row.1, f k row.2)) (fun _ _ => rfl) hrow
  | some row =>
      obtain ⟨k, hk, he⟩ := Table.find?_mapIdx_some (f := fun k row => (row.1, f k row.2))
        (fun _ _ => rfl) hrow
      refine .inr ⟨row, k, rfl, hk, ?_⟩
      rw [store, he]
      rfl

theorem store_of_find? {w : World} {id : String} {row : String × Store}
    (h : w.chains.find? id = some row) : w.store id = row.2 := by
  rw [store, h]
  rfl

theorem mapStores_ok {w w' : World} {f : Nat → Store → Except ApiError Store}
    (h : w.mapStores f = .ok w') (id : String) :
    (w'.store id = w.store id ∨ ∃ k, f k (w.store id) = .ok (w'.store id)) ∧
      w'.cfg = w.cfg ∧ w'.tasks = w.tasks := by
  unfold mapStores at h
  split at h
  · cases h
  · rename_i hnone
    cases h
    refine ⟨?_, rfl, rfl⟩
    obtain he | ⟨row, k, hrow, hk, he⟩ :=
      store_mapped w (fun k st => (f k st).toOption.getD st) id
    · exact .inl he
    · refine .inr ⟨k, ?_⟩
      have hok := List.findSome?_eq_none_iff.mp hnone (row, k) hk
      rw [store_of_find? hrow, he]
      cases hf : f k row.2 with
      | ok st => rfl
      | error e => simp [hf] at hok

end World

/-- The call whose executing transaction the event runs. -/
def World.acting (w : World) : Event → Option Call
  | .resume i _ _ => match w.tasks[i]? with
    | some (.start call value) => value.toOption.map fun value => { call with value }
    | some (.items call _) => some call
    | _ => none
  | _ => none

/-- The item whose transaction the event runs, with its upload and position. -/
def World.uploading (w : World) : Event → Option (Call × Nat × Json)
  | .resume i _ _ => match w.tasks[i]? with
    | some (.items call p) => p.remaining.head?.map fun x => (call, x)
    | _ => none
  | _ => none

theorem World.uploading_acting {w : World} {ev : Event} {call : Call} {x : Nat × Json}
    (h : w.uploading ev = some (call, x)) : w.acting ev = some call := by
  cases ev with
  | resume i o faults =>
      rw [World.uploading] at h
      split at h
      · rename_i call' p ht
        obtain ⟨y, -, hy⟩ := Option.map_eq_some_iff.mp h
        cases hy
        simp [World.acting, ht]
      · cases h
  | request _ _ | complete | retention _ | restart _ _ => cases h

theorem startCheck_ok {R : Relay} {call call' : Call} {value : Except ApiError Json} {t : Nat}
    (h : startCheck R call value t = .ok call') :
    ∃ v, value = .ok v ∧ call' = { call with value := v } := by
  simp only [startCheck, Check.bind_ok] at h
  obtain ⟨v, hv, h⟩ := h
  refine ⟨v, hv, ?_⟩
  rcases Check.ite_ok.mp h with ⟨-, h⟩ | ⟨-, h⟩
  · exact Check.pure_ok.mp h
  · obtain ⟨_, -, h⟩ := Check.bind_ok.mp h
    exact Check.pure_ok.mp h

section Steps

variable {X : Crypto} {w : World} {id : String}

/-- The executing transaction does nothing or runs `executeTx`. -/
theorem stepExecute_run (R : Relay) (o : Oracle) (call : Call) (st : Store) :
    (stepExecute R o call st).1 = st ∨
      ∃ reply b, st.deletion = none ∧ (executeTx R call).run o st = .ok (reply, b) ∧
        (stepExecute R o call st).1 = b.store := by
  unfold stepExecute
  split
  · exact .inl rfl
  · rename_i hdel
    split
    · rename_i reply b hrun
      exact .inr ⟨reply, b, hdel, hrun, rfl⟩
    · exact .inl rfl

theorem stepExecute_commit (R : Relay) (o : Oracle) (call : Call) (st : Store) :
    (stepExecute R o call st).1 = st ∨
      Commit R (some call) st (stepExecute R o call st).1 := by
  obtain he | ⟨reply, b, hdel, hrun, he⟩ := stepExecute_run R o call st
  · exact .inl he
  · obtain ⟨w, w', hw, hm, rfl⟩ := run_ok hrun
    exact .inr (he ▸ .execute hdel (hw ▸ executeTx_ok hm))

/-- The transaction of one item does nothing or runs `uploadItem`. -/
theorem stepItem_run (R : Relay) (o : Oracle) (faults : Faults) (call : Call)
    (p : Progress) (item : Nat × Json) (rest : List (Nat × Json)) (st : Store) :
    (stepItem R o faults call p item rest st).1 = st ∨
      ∃ x b, st.chain.isSome ∧ (uploadItem R call item.1 item.2).run o st = .ok (x, b) ∧
        (stepItem R o faults call p item rest st).1 = b.store := by
  unfold stepItem
  split
  · exact .inl rfl
  · split
    · exact .inl rfl
    · split
      · exact .inl rfl
      · rename_i c hc
        dsimp only
        split
        · exact .inl rfl
        · rename_i result b hrun
          split
          · exact .inl rfl
          · exact .inr ⟨_, b, by rw [hc]; rfl, hrun, rfl⟩

/-- The transaction of one item: nothing, or what `ItemMoved` says. -/
theorem stepItem_ok (R : Relay) (o : Oracle) (faults : Faults) (call : Call)
    (p : Progress) (item : Nat × Json) (rest : List (Nat × Json)) (st : Store) :
    (stepItem R o faults call p item rest st).1 = st ∨
      ∃ mid b, st.chain.isSome ∧ st.deletion = none ∧
        uploaderActive st (st.chain.getD .unset) call.auth = .ok () ∧
        ItemMoved R call item.1 item.2 st.cell mid ∧ Saved mid b ∧
        (stepItem R o faults call p item rest st).1 = b.store := by
  obtain he | ⟨x, b, hc, hrun, he⟩ := stepItem_run R o faults call p item rest st
  · exact .inl he
  · obtain ⟨w, w', hw, hm, rfl⟩ := run_ok hrun
    obtain ⟨hdel, hact, mid, hmoved, hsaved⟩ := uploadItem_ok hm
    rw [hw] at hdel hact hmoved
    exact .inr ⟨mid, _, hc, hdel, hact, hmoved, hsaved, he⟩

theorem stepItem_commit (R : Relay) (o : Oracle) (faults : Faults) (call : Call)
    (p : Progress) (item : Nat × Json) (rest : List (Nat × Json)) (st : Store) :
    (stepItem R o faults call p item rest st).1 = st ∨
      Commit R (some call) st (stepItem R o faults call p item rest st).1 := by
  obtain he | ⟨mid, b, hc, hdel, hact, hmoved, hsaved, he⟩ :=
    stepItem_ok R o faults call p item rest st
  · exact .inl he
  · exact .inr (he ▸ .item hc hdel hact hmoved hsaved)

theorem auditReject_commit {R : Relay} {o : Oracle} {objects : List Json} {code : Code}
    {st : Store} {b : Cell} {u : Unit} (hc : st.chain.isSome)
    (h : (auditReject R objects code).run o st = .ok (u, b)) : Commit R none st b.store := by
  obtain ⟨w, w', hw, hm, rfl⟩ := run_ok h
  obtain ⟨mid, hmoves, hsaved⟩ := auditReject_moves hm
  refine .evidence hc (fun m hm => ?_) (hw ▸ hmoves) hsaved
  obtain ⟨x, -, rfl⟩ := List.mem_map.mp hm
  simp [Move.isEvidence]

theorem stepItemAudit_commit (R : Relay) (o : Oracle) (faults : Faults) (call : Call)
    (p : Progress) (r : Json) (e : ApiError) (st : Store) :
    (stepItemAudit R o faults call p r e st).1 = st ∨
      Commit R none st (stepItemAudit R o faults call p r e st).1 := by
  unfold stepItemAudit
  split
  · exact .inl rfl
  · split
    · exact .inl rfl
    · rename_i c hc
      split
      · exact .inl rfl
      · rename_i u b hrun
        exact .inr (auditReject_commit (by rw [hc]; rfl) hrun)

theorem stepAudit_commit (R : Relay) (o : Oracle) (call : Call) (e : ApiError) (st : Store) :
    (stepAudit R o call e st).1 = st ∨ Commit R none st (stepAudit R o call e st).1 := by
  unfold stepAudit
  split
  · exact .inl rfl
  · rename_i c hc
    split
    · exact .inl rfl
    · rename_i u b hrun
      exact .inr (auditReject_commit (by rw [hc]; rfl) hrun)

theorem noticeStore_commit {R : Relay} {o : Oracle} {st st' : Store}
    (h : World.noticeStore R o st = .ok st') : st' = st ∨ Commit R none st st' := by
  unfold World.noticeStore at h
  split at h
  · rename_i c hdel hc
    obtain ⟨⟨u, b⟩, hrun, h⟩ := Check.bind_ok.mp h
    obtain rfl := Check.pure_ok.mp h
    obtain ⟨w, w', hw, hm, rfl⟩ := run_ok hrun
    obtain ⟨_, w₁, hn, hs⟩ := bind_ok.mp hm
    obtain ⟨ms, hms, hmoves⟩ := publishNotice_moves hn
    exact .inr (.evidence (by rw [hc]; rfl) hms (hw ▸ hmoves) (save_ok hs))
  · exact .inl (Except.ok.inj h).symm

theorem expireStore_commit {R : Relay} {o : Oracle} {t : Nat} {st st' : Store}
    (h : World.expireStore R o t st = .ok st') : st' = st ∨ Commit R none st st' := by
  unfold World.expireStore at h
  split at h
  · exact .inl (Except.ok.inj h).symm
  · split at h
    · exact .inl (Except.ok.inj h).symm
    · rename_i c hc
      obtain ⟨⟨u, b⟩, hrun, h⟩ := Check.bind_ok.mp h
      obtain rfl := Check.pure_ok.mp h
      obtain ⟨w, w', hw, hm, rfl⟩ := run_ok hrun
      simp only [bind_ok, check_ok] at hm
      obtain ⟨_, w₁, hexp, -, rfl⟩ := hm
      obtain ⟨t', hmoves⟩ := expire_moves (X := R.crypto) hexp
      rw [hw] at hmoves
      exact .inr (.expire (by rw [hc]; rfl) hmoves)

theorem enrollment_commit {R : Relay} {o : Oracle} {q : Query} {v : Json} {st : Store}
    {reply : Reply} {b : Cell} (h : (enrollmentCandidate R q v).run o st = .ok (reply, b)) :
    Commit R none st b.store := by
  obtain ⟨w, w', hw, hm, rfl⟩ := run_ok h
  simp only [enrollmentCandidate, bind_ok, lift_ok, look_ok, failIf_ok, require_ok, check_ok,
    pure_ok] at hm
  obtain ⟨_, _, ⟨-, rfl⟩, _, _, ⟨rfl, rfl⟩, _, _, ⟨hdel, rfl⟩, _, _, ⟨-, rfl⟩, _, _, ⟨-, rfl⟩,
    _, w₁, hreq, _, _, ⟨-, rfl⟩, -, rfl⟩ := hm
  have hs := Still.of_core (enrollmentRequest_stays R v _ _ _ hreq)
  rw [hw] at hs hdel
  exact .enrollment (by simpa using hdel) hs

/-- What became of the store of chain `id` in a step. -/
def Change (X : Crypto) (w : World) (ev : Event) (id : String) (st' : Store) : Prop :=
  st' = w.store id ∨
    ∃ cause, Commit (w.relay X) cause (w.store id) st' ∧
      ∀ call, cause = some call → w.acting ev = some call ∧ call.chain = id

/-- The transaction a step runs on the store of chain `id`, if any. -/
inductive Txn (X : Crypto) (w : World) (id : String) : Event → Store → Prop where
  | kept {ev} : Txn X w id ev (w.store id)
  | executed {i o o' faults call v} : w.tasks[i]? = some (.start call (.ok v)) →
      call.chain = id →
      Txn X w id (.resume i o faults)
        (stepExecute (w.relay X) o' { call with value := v } (w.store id)).1
  | item {i o faults call p x rest} : w.tasks[i]? = some (.items call p) → call.chain = id →
      p.remaining = x :: rest →
      Txn X w id (.resume i o faults)
        (stepItem (w.relay X) o faults call p x rest (w.store id)).1
  | itemAudit {i o faults call p r e} : w.tasks[i]? = some (.itemAudit call p r e) →
      call.chain = id →
      Txn X w id (.resume i o faults)
        (stepItemAudit (w.relay X) o faults call p r e (w.store id)).1
  | audit {i o faults call e} : w.tasks[i]? = some (.audit call e) → call.chain = id →
      Txn X w id (.resume i o faults) (stepAudit (w.relay X) o call e (w.store id)).1
  | erased {i o faults after} : w.tasks[i]? = some (.erase after) →
      Txn X w id (.resume i o faults) (w.store id).erase
  | finished {i o faults after t st'} : w.tasks[i]? = some (.finish after) →
      (w.store id).finish X t = .ok st' → Txn X w id (.resume i o faults) st'
  | notice {i o o' faults st'} : w.tasks[i]? = some .notices →
      World.noticeStore (w.relay X) o' (w.store id) = .ok st' →
      Txn X w id (.resume i o faults) st'
  | enrollment {q o o' v reply b} : q.chain = id →
      (enrollmentCandidate (w.relay X) q.query v).run o' (w.store id) = .ok (reply, b) →
      Txn X w id (.request q o) b.store
  | expired {o o' t st'} : World.expireStore (w.relay X) o' t (w.store id) = .ok st' →
      Txn X w id (.retention o) st'

/-- A transaction on one chain leaves the others alone. -/
theorem txn_commit {ev : Event} {i : Nat} {id' : String} {r : Store × Task}
    (h : id = id' → Txn X w id ev r.1) : Txn X w id ev ((w.commit i id' r).store id) := by
  rw [World.store_commit]
  split
  · rename_i hid
    exact h hid
  · exact .kept

theorem txn_mapStores {ev : Event} {w' : World} {f : Nat → Store → Except ApiError Store}
    (hf : ∀ k st', f k (w.store id) = .ok st' → Txn X w id ev st')
    (h : w.mapStores f = .ok w') : Txn X w id ev (w'.store id) := by
  obtain he | ⟨k, hk⟩ := (World.mapStores_ok h id).1
  · rw [he]
    exact .kept
  · exact hf k _ hk

theorem stepStart_txn {i : Nat} {call : Call} {value : Except ApiError Json} {o o' : Oracle}
    {faults : Faults} (ht : w.tasks[i]? = some (.start call value)) :
    Txn X w id (.resume i o' faults) ((w.stepStart X i call value o faults).store id) := by
  unfold World.stepStart
  dsimp only
  split
  · exact .kept
  · rename_i call' hstart
    obtain ⟨v, rfl, rfl⟩ := startCheck_ok hstart
    split
    · split
      · exact .kept
      · exact .kept
    · split
      · exact .kept
      · refine txn_commit fun hid => ?_
        subst hid
        exact .executed ht rfl

theorem stepTask_txn {i : Nat} {o : Oracle} {faults : Faults} :
    Txn X w id (.resume i o faults) ((w.stepTask X i o faults).store id) := by
  unfold World.stepTask
  dsimp only
  split
  · rename_i call value ht
    exact stepStart_txn ht
  · exact .kept
  · rename_i call p ht
    split
    · exact .kept
    · rename_i x rest hrem
      refine txn_commit fun hid => ?_
      subst hid
      exact .item ht rfl hrem
  · rename_i call p r e ht
    refine txn_commit fun hid => ?_
    subst hid
    exact .itemAudit ht rfl
  · rename_i call e ht
    refine txn_commit fun hid => ?_
    subst hid
    exact .audit ht rfl
  · rename_i after ht
    have h : Txn X w id (.resume i o faults) ((w.mapped fun _ st => st.erase).store id) := by
      obtain he | ⟨row, k, hrow, -, he⟩ := w.store_mapped (fun _ st => st.erase) id
      · rw [he]
        exact .kept
      · rw [he, ← World.store_of_find? hrow]
        exact .erased ht
    unfold World.stepErase
    dsimp only
    split
    · exact h
    · exact h
  · rename_i after ht
    unfold World.stepFinish
    dsimp only
    split
    · rename_i w' hw'
      have h : Txn X w id (.resume i o faults) (w'.store id) :=
        txn_mapStores (fun _ _ h => .finished ht h) hw'
      exact h
    · exact .kept
  · rename_i ht
    unfold World.stepNotices
    split
    · rename_i w' hw'
      have h : Txn X w id (.resume i o faults) (w'.store id) :=
        txn_mapStores (fun _ _ h => .notice ht h) hw'
      exact h
    · exact .kept
  · exact .kept
  · exact .kept

theorem stepRequest_txn {q : Request} {o o' : Oracle} :
    Txn X w id (.request q o') ((w.stepRequest X q o).store id) := by
  unfold World.stepRequest
  dsimp only
  split
  · split
    · exact .kept
    · split
      · exact .kept
      · rename_i v _ _
        unfold World.stepEnrollment
        dsimp only
        split
        · exact .kept
        · split
          · exact .kept
          · rename_i reply b hrun
            rw [World.store_spawn, World.store_setStore]
            split
            · rename_i hid
              subst hid
              exact .enrollment rfl hrun
            · exact .kept
  · split
    · exact .kept
    · split
      · exact .kept
      · exact .kept

/-- What one step of the relay does to a chain: one transaction, or nothing. -/
theorem step_txn (X : Crypto) (w : World) (ev : Event) (id : String) :
    Txn X w id ev ((w.step X ev).store id) := by
  cases ev with
  | request q o => exact stepRequest_txn
  | resume i o faults => exact stepTask_txn
  | complete => exact .kept
  | retention o =>
      show Txn X w id _ ((w.stepRetention X o).store id)
      unfold World.stepRetention
      split
      · rename_i w' hw'
        exact txn_mapStores (fun _ _ h => .expired h) hw'
      · exact .kept
  | restart settings t => exact .kept

theorem Txn.change {ev : Event} {st' : Store} (h : Txn X w id ev st') :
    Change X w ev id st' := by
  have silent : ∀ {st'}, st' = w.store id ∨ Commit (w.relay X) none (w.store id) st' →
      Change X w ev id st' := fun h => h.imp_right fun h => ⟨none, h, fun _ hc => by cases hc⟩
  cases h with
  | kept => exact .inl rfl
  | executed ht hid =>
      refine (stepExecute_commit _ _ _ _).imp_right fun h => ⟨_, h, fun call hc => ?_⟩
      cases hc
      exact ⟨by simp [World.acting, ht, Except.toOption], hid⟩
  | item ht hid _ =>
      refine (stepItem_commit _ _ _ _ _ _ _ _).imp_right fun h => ⟨_, h, fun call hc => ?_⟩
      cases hc
      exact ⟨by simp [World.acting, ht], hid⟩
  | itemAudit _ _ => exact silent (stepItemAudit_commit _ _ _ _ _ _ _ _)
  | audit _ _ => exact silent (stepAudit_commit _ _ _ _ _)
  | erased _ => exact silent (.inr .erase)
  | finished _ h => exact silent (.inr (.finish h))
  | notice _ h => exact silent (noticeStore_commit h)
  | enrollment _ h => exact silent (.inr (enrollment_commit h))
  | expired h => exact silent (expireStore_commit h)

/-- What one step of the relay does to a chain: nothing, or one commit. -/
theorem step_commit (X : Crypto) (w : World) (ev : Event) (id : String) :
    Change X w ev id ((w.step X ev).store id) :=
  (step_txn X w ev id).change

end Steps

end PallaSync
