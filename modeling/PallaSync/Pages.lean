import PallaSync.Origins

/-!
# Pages along a run

A paginated read is a sequence of requests. The first one pins the chain; each
later one names the cursor of the page before, and any number of other events
may stand between the two. `Paged` is that sequence as the run has it. Cursors
are only added to (`store_accrues`), so the next page goes on from exactly what
the page before left (`Pages.resumed`).
-/

namespace PallaSync

open Atomic Machine

/-! ## What is only added to -/

/-- Neither a cursor nor a version of the registry is lost. -/
def accrueFrame : Frame Work where
  rel w w' := w.cell.store.Accrues w'.cell.store
  refl w := .refl w.cell.store
  trans := .trans

section Programs

variable (R : Relay)

theorem save_accrues : Keeps accrueFrame (save R) := by
  intro w u w' h
  obtain ⟨cut, -, hw, -⟩ := save_published R h
  show w.cell.store.Accrues w'.cell.store
  rw [hw]
  exact .of_eq rfl rfl rfl rfl

theorem accrueFrame_aside : SavedAside accrueFrame where
  still _ _ _ h := h
  save := save_accrues

theorem setStore_accrues {f : Store → Store} (hf : ∀ st : Store, st.Accrues (f st)) :
    Keeps accrueFrame (setStore f) := by
  intro w u w' h
  obtain rfl := setStore_ok.mp h
  exact hf w.cell.store

theorem attempt_accrues {β : Type} {x : Store → Option β} {g : Store → β → Store}
    (hg : ∀ (st : Store) b, st.Accrues (g st b)) :
    Keeps accrueFrame (attempt fun st => (x st).map (g st)) := by
  intro w u w' h
  obtain ⟨st, hst, rfl⟩ := attempt_ok.mp h
  obtain ⟨b, -, rfl⟩ := Option.map_eq_some_iff.mp hst
  exact hg w.cell.store b

theorem outcome_accrues (scope : OutcomeScope) (id : String) (payload response : Json) :
    Keeps accrueFrame (outcome R.crypto scope id payload response) :=
  attempt_accrues fun _ _ => .of_eq rfl rfl rfl rfl

theorem enrollmentRequest_accrues (v : Json) : Keeps accrueFrame (enrollmentRequest R v) := by
  intro w x w' h
  show w.cell.store.Accrues w'.cell.store
  obtain ⟨row, -, hcell | ⟨-, -, hcell⟩⟩ := enrollmentRequest_ok R h
  · exact hcell ▸ .refl _
  · rw [hcell]
    exact .of_eq rfl rfl rfl rfl

end Programs

/-- A frame of which every transaction on an undeleted chain is a step. -/
structure Steadfast (F : Frame Work) : Prop extends SavedAside F where
  outcome : ∀ (R : Relay) scope id payload response,
    Keeps F (outcome R.crypto scope id payload response)
  offer : ∀ R auth v, Keeps F (offer R auth v)
  decides : ∀ R auth id v reject, Keeps F (approve R auth id v reject)
  requests : ∀ R v, Keeps F (enrollmentRequest R v)
  imports : ∀ f : Store → Option Import, Keeps F (setStore fun st => { st with imports := f st })
  nonces : ∀ f : Store → Table PayloadNonceRow PayloadNonceRow.key,
    Keeps F (setStore fun st => { st with payloadNonces := f st })

theorem accrueFrame_steadfast : Steadfast accrueFrame where
  toSavedAside := accrueFrame_aside
  outcome R := outcome_accrues R
  offer R auth v := accrueFrame_aside.toAside.offer R auth v
    (fun _ _ _ _ => attempt_accrues fun _ _ => .of_eq rfl rfl rfl rfl) (outcome_accrues R _ _ v)
  decides R auth id v reject := accrueFrame_aside.toAside.approve R auth id v reject
    (fun _ _ => setStore_accrues fun _ => .of_eq rfl rfl rfl rfl) (outcome_accrues R _ _ v)
    fun _ => outcome_accrues R _ _ v
  requests R := enrollmentRequest_accrues R
  imports _ := setStore_accrues fun _ => .of_eq rfl rfl rfl rfl
  nonces _ := setStore_accrues fun _ => .of_eq rfl rfl rfl rfl

section Steps

variable {X : Crypto} {cfg : RelayConfig} {w : World} {id : String} {ev : Event} {st' : Store}
  {F : Frame Work} {K : Store → Store → Prop}

theorem Steadfast.run {α : Type} {m : Tx α} (hK : ∀ w w', F.rel w w' → K w.cell.store w'.cell.store)
    (hm : Keeps F m) {o : Oracle} {st : Store} {x : α} {b : Cell}
    (h : m.run o st = .ok (x, b)) : K st b.store := by
  obtain ⟨w, w', hw, hrun, rfl⟩ := run_ok h
  have hstep : K w.cell.store w'.cell.store := hK _ _ (hm _ _ _ hrun)
  rwa [hw] at hstep

/-- While the chain is not deleted, every transaction is a step of the frame. -/
theorem Steadfast.txn (hF : Steadfast F) (hK : ∀ w w', F.rel w w' → K w.cell.store w'.cell.store)
    (hrefl : ∀ st, K st st) (h : Txn X w id ev st') (hdel : (w.store id).deletion = none) :
    K (w.store id) st' := by
  have hA := hF.toAside
  have hsame {st st' : Store} (h : st' = st) : K st st' := h ▸ hrefl st
  cases h with
  | kept => exact hrefl _
  | executed ht hid =>
      obtain he | ⟨reply, b, -, hrun, he⟩ := stepExecute_run (w.relay X) _ _ (w.store id)
      · exact hsame he
      · rw [he]
        refine Steadfast.run hK (Handles.executeTx (F := F) ?_ |>.keeps (hF.save _)) hrun
        exact ⟨hA, fun _ _ => hF.outcome _ _ _ _ _, fun _ => hF.offer _ _ _,
          fun _ _ => hF.decides _ _ _ _ _, fun _ => hF.imports⟩
  | item ht hid hrem =>
      obtain he | ⟨x, b, -, hrun, he⟩ := stepItem_run (w.relay X) _ _ _ _ _ _ (w.store id)
      · exact hsame he
      · rw [he]
        exact Steadfast.run hK ((hA.uploadItem _ _ _ _ (hF.nonces _)).keeps (hF.save _)) hrun
  | itemAudit ht _ =>
      unfold stepItemAudit
      split
      · exact hrefl _
      · split
        · exact hrefl _
        · split
          · exact hrefl _
          · rename_i hrun
            exact Steadfast.run hK ((hA.auditReject _ _ _).keeps (hF.save _)) hrun
  | audit ht _ =>
      unfold stepAudit
      split
      · exact hrefl _
      · split
        · exact hrefl _
        · rename_i hrun
          exact Steadfast.run hK ((hA.auditReject _ _ _).keeps (hF.save _)) hrun
  | erased _ => exact hsame (erase_still hdel)
  | finished _ h =>
      rw [Store.finish, hdel] at h
      exact hsame (Except.ok.inj h).symm
  | notice _ h =>
      unfold World.noticeStore at h
      split at h
      · obtain ⟨⟨u, b⟩, hrun, h⟩ := Check.bind_ok.mp h
        obtain rfl := Check.pure_ok.mp h
        exact Steadfast.run hK ((hA.notice _).keeps (hF.save _)) hrun
      · exact hsame (Except.ok.inj h).symm
  | enrollment _ h =>
      refine Steadfast.run hK ?_ h
      exact .bind (.lift _) fun _ => .bind (hA.look _) fun _ => .bind (.failIf _ _) fun _ =>
        .bind (.require _ _) fun _ => .bind (.failIf _ _) fun _ =>
        .bind (hF.requests _ _) fun _ => .bind (hA.check _) fun _ => .pure _
  | expired h =>
      unfold World.expireStore at h
      split at h
      · exact hsame (Except.ok.inj h).symm
      · split at h
        · exact hsame (Except.ok.inj h).symm
        · obtain ⟨⟨u, b⟩, hrun, h⟩ := Check.bind_ok.mp h
          obtain rfl := Check.pure_ok.mp h
          exact Steadfast.run hK (.bind hA.expire fun _ => hA.check _) hrun

/-- So is every run. -/
theorem Steadfast.store (hF : Steadfast F)
    (hK : ∀ w w', F.rel w w' → K w.cell.store w'.cell.store) (hrefl : ∀ st, K st st)
    (htrans : ∀ {s t u}, K s t → K t u → K s u) (X : Crypto) (cfg : RelayConfig)
    (es es' : List Event) (id : String)
    (hdel : (storeAfter X cfg (es ++ es') id).deletion = none) :
    K (storeAfter X cfg es id) (storeAfter X cfg (es ++ es') id) := by
  induction es' using List.reverseRecOn with
  | nil =>
      rw [List.append_nil]
      exact hrefl _
  | append_singleton es' ev ih =>
      rw [← List.append_assoc] at hdel ⊢
      have hbefore := (store_earlier X cfg (es ++ es') [ev] id hdel).1
      refine htrans (ih hbefore) ?_
      rw [storeAfter, storeAfter, World.after, World.after, run_snoc]
      exact hF.txn hK hrefl (step_txn X (World.after X cfg (es ++ es')) ev id) hbefore

theorem Txn.accrues (h : Txn X w id ev st') (hdel : (w.store id).deletion = none) :
    (w.store id).Accrues st' :=
  accrueFrame_steadfast.txn (fun _ _ h => h) .refl h hdel

/-- Nothing is lost of the cursors and versions of a chain that is not deleted. -/
theorem store_accrues (X : Crypto) (cfg : RelayConfig) (es es' : List Event) (id : String)
    (hdel : (storeAfter X cfg (es ++ es') id).deletion = none) :
    (storeAfter X cfg es id).Accrues (storeAfter X cfg (es ++ es') id) :=
  accrueFrame_steadfast.store (fun _ _ h => h) .refl .trans X cfg es es' id hdel

end Steps

/-! ## An answered read -/

/-- The routes that answer from the stored chain in one transaction. -/
def Route.plain (route : Route) : Bool :=
  route.isGet && route != .exportChain && route != .partGet && route != .deletion

/-- The event resumes a task that executes `call` on chain `id`, and the task
answers with `v`. -/
structure Replied (X : Crypto) (w : World) (id : String) (ev : Event) (call : Call) (v : Json) :
    Prop where
  chain : call.chain = id
  resumed : ∃ i o faults body, ev = .resume i o faults ∧
    w.tasks[i]? = some (.start call body) ∧
    (w.step X ev).tasks[i]? = some (.done (.json 200 v))

/-- What an answered read did: its program ran on the stored chain. -/
structure Ran (X : Crypto) (w : World) (id : String) (ev : Event) (c : Chain) (m : Tx Json)
    (v : Json) (u u' : Work) : Prop where
  live : (w.store id).deletion = none
  stored : (w.store id).chain = some c
  start : u.cell = ⟨w.store id, c⟩
  run : m u = .ok (v, u')
  size : Store.size X v ≤ responseMax
  left : (w.step X ev).store id = u'.cell.store

section Answers

variable {X : Crypto} {w : World} {id : String} {ev : Event} {call : Call} {v : Json}

theorem dispatch_read {R : Relay} {u u' : Work} {status : Nat} (hplain : call.route.plain = true)
    (h : dispatch R call u = .ok (.json status v, u')) :
    readRoute R call u = .ok (v, u') ∧ Store.size R.crypto v ≤ responseMax := by
  have hget : call.route.isGet = true ∧ call.route ≠ .exportChain := by
    revert hplain
    cases call.route <;> decide
  simp only [dispatch, bind_ok, lift_ok] at h
  obtain ⟨_, _, ⟨-, rfl⟩, h⟩ := h
  rw [if_neg hget.2, if_pos hget.1] at h
  obtain ⟨x, u₁, hread, h⟩ := bind_ok.mp h
  obtain ⟨_, _, hsized, h⟩ := bind_ok.mp h
  obtain ⟨hsized, rfl⟩ := lift_ok.mp hsized
  obtain ⟨he, rfl⟩ := pure_ok.mp h
  cases he
  exact ⟨hread, by simpa [sized, Check.failIf_ok] using hsized⟩

theorem stepExecute_read {R : Relay} {o : Oracle} {st : Store} {status : Nat}
    (hplain : call.route.plain = true)
    (h : (stepExecute R o call st).2 = .done (.json status v)) :
    ∃ c u u', st.deletion = none ∧ st.chain = some c ∧ u.cell = ⟨st, c⟩ ∧
      readRoute R call u = .ok (v, u') ∧ Store.size R.crypto v ≤ responseMax ∧
      (stepExecute R o call st).1 = u'.cell.store := by
  have hother : call.route ≠ .deletion ∧ call.route ≠ .delete ∧ call.route ≠ .genesis ∧
      call.route ≠ .importChain := by
    revert hplain
    cases call.route <;> decide
  obtain ⟨hdeletion, hdelete, hgenesis, himport⟩ := hother
  unfold stepExecute at h ⊢
  cases hdel : st.deletion with
  | some d =>
      have hgone : deletedReply R.crypto d call = .error (gone d.proof) := by
        simp only [deletedReply, if_neg hdeletion, hdelete, false_and, if_false]
      simp [hdel, hgone] at h
  | none =>
      cases hrun : (executeTx R call).run o st with
      | error e =>
          simp only [hdel, hrun] at h
          split at h <;> cases h
      | ok x =>
          obtain ⟨reply, b⟩ := x
          simp only [hdel, hrun, if_neg hdelete, Task.done.injEq] at h
          subst h
          obtain ⟨u, u', hu, hexec, rfl⟩ := run_ok hrun
          have hon : onChain R call u = .ok (.json status v, u') := by
            unfold executeTx at hexec
            generalize call.route = route at hexec hgenesis himport
            split at hexec
            · exact absurd rfl hgenesis
            · exact absurd rfl himport
            · exact hexec
          simp only [onChain, bind_ok, look_ok, require_ok, failIf_ok, check_ok] at hon
          obtain ⟨_, _, ⟨rfl, rfl⟩, c, _, ⟨hc, rfl⟩, _, _, ⟨-, rfl⟩, _, _, ⟨-, rfl⟩, hon⟩ := hon
          obtain ⟨hread, hsize⟩ := dispatch_read hplain hon
          rw [hu] at hc
          refine ⟨c, u, u', rfl, hc, hu.trans ?_, hread, hsize, rfl⟩
          rw [Store.cell, hc, Option.getD_some]

/-- An answered read ran on the stored chain. -/
theorem Replied.ran (h : Replied X w id ev call v) (hplain : call.route.plain = true) :
    ∃ body c u u', Ran X w id ev c (readRoute (w.relay X) { call with value := body }) v u u' := by
  obtain ⟨rfl, i, o, faults, body, rfl, htask, hdone⟩ := h
  have hother : call.route.isUpload = false ∧ call.route ≠ .exportChain ∧
      call.route ≠ .partGet := by
    revert hplain
    cases call.route <;> decide
  obtain ⟨hupload, hexport, hpart⟩ := hother
  have hi : i < w.tasks.length := (List.getElem?_eq_some_iff.mp htask).1
  have hlast (task : Task) : (w.tasks.set i task)[i]? = some task := by simp [hi]
  have hstep : w.step X (.resume i o faults) = w.stepStart X i call body o faults := by
    simp only [World.step, World.stepTask, htask]
  unfold World.stepStart at hstep
  dsimp only at hstep
  split at hstep
  · rw [hstep] at hdone
    cases (hlast _).symm.trans hdone
  · rename_i call' hstart
    obtain ⟨body, rfl, rfl⟩ := startCheck_ok hstart
    rw [if_neg (by simp [hupload]), if_neg (by simp [hexport, hpart])] at hstep
    rw [hstep] at hdone
    have hgiven : ({ call with value := body } : Call).route.plain = true := hplain
    obtain ⟨c, u, u', hdel, hc, hu, hread, hsize, hst⟩ :=
      stepExecute_read hgiven (Option.some.inj ((hlast _).symm.trans hdone))
    refine ⟨body, c, u, u', hdel, hc, hu, hread, hsize, ?_⟩
    rw [hstep, World.store_commit, if_pos rfl]
    exact hst

end Answers

/-! ## Opening and leaving a page -/

/-- One page of a read: it was opened as `p` and left as `p'`, and its answer
`v` names a cursor for `p'` if there is more. -/
structure Turned (R : Relay) (route : Route) (q : Query) (v : Json) (u u' : Work) (p p' : Page)
    (more : Bool) : Prop where
  opened : ∃ u₁, page R route q p.filters u = .ok (p, u₁)
  same : p'.cut = p.cut ∧ p'.filters = p.filters ∧ p'.resource = p.resource
  next : ∃ u₂, u₂.cell = u.cell ∧ nextCursor R p' more u₂ = .ok (v.get "next_cursor", u')

/-- A page goes on from where another one was left. -/
structure Page.From (p p' : Page) : Prop where
  cut : p.cut = p'.cut
  position : p.position = p'.position
  key : p.key = p'.key
  extra : p.extra = p'.extra
  filters : p.filters = p'.filters

section Turns

variable {R : Relay} {route : Route} {q : Query} {filters v : Json} {u u' : Work} {p p' : Page}
  {more : Bool}

theorem decimal_ok {text : String} {lo hi k : Nat} (h : decimal text lo hi = .ok k) :
    lo ≤ k ∧ k ≤ hi := by
  unfold decimal at h
  obtain ⟨_, -, h⟩ := Check.bind_ok.mp h
  obtain ⟨_, hle, h⟩ := Check.bind_ok.mp h
  obtain rfl := Except.ok.inj h
  have := Check.failIf_ok.mp hle
  simp only [decide_eq_false_iff_not, not_or, Nat.not_lt] at this
  exact this

theorem decimalQuery_ok {name : String} {lo hi : Nat} {k : Option Nat}
    (h : decimalQuery q name lo hi = .ok k) : ∀ x, k = some x → lo ≤ x ∧ x ≤ hi := by
  unfold decimalQuery at h
  split at h
  · obtain rfl := Except.ok.inj h
    exact fun _ hx => (by cases hx)
  · rename_i text _
    cases hd : decimal text lo hi with
    | error e => rw [hd] at h; cases h
    | ok y =>
        rw [hd] at h
        obtain rfl := Except.ok.inj h
        rintro x hx
        obtain rfl := Option.some.inj hx
        exact decimal_ok hd

/-- The limit a query asks for. -/
def Limited (limits : Limits) (q : Query) (limit : Nat) : Prop :=
  ∃ k, decimalQuery q "limit" 1 limits.pageLimit = .ok k ∧
    limit = k.getD (min 200 limits.pageLimit)

theorem Limited.positive {limits : Limits} {limit : Nat} (h : Limited limits q limit) :
    1 ≤ limit := by
  obtain ⟨k, hk, rfl⟩ := h
  have hpage := limits.page_le
  cases k with
  | none => simp only [Option.getD_none]; omega
  | some k => exact (decimalQuery_ok hk k rfl).1

/-- What every page has. -/
theorem page_opened (h : page R route q filters u = .ok (p, u')) :
    u'.cell = u.cell ∧ p.resource = route ∧ p.filters = filters ∧
      Limited R.cfg.limits q p.limit := by
  simp only [page, bind_ok, lift_ok, failIf_ok, now_ok] at h
  obtain ⟨limit, _, ⟨hlimit, rfl⟩, _, _, ⟨-, rfl⟩, t, _, ⟨-, rfl⟩, h⟩ := h
  have hbound : Limited R.cfg.limits q (limit.getD (min 200 R.cfg.limits.pageLimit)) :=
    ⟨limit, hlimit, rfl⟩
  cases hcursor : query q "cursor" with
  | some token =>
      simp only [hcursor, check_ok, resumePage, Check.bind_ok, Check.failIf_ok, Check.require_ok,
        Check.pure_ok] at h
      obtain ⟨⟨_, -, row, -, _, -, _, -, _, -, _, -, rfl⟩, rfl⟩ := h
      exact ⟨rfl, rfl, rfl, hbound⟩
  | none =>
      simp only [hcursor, bind_ok, lift_ok, chain_ok, look_ok, pure_ok] at h
      obtain ⟨_, _, ⟨-, rfl⟩, _, _, ⟨rfl, rfl⟩, _, _, ⟨-, rfl⟩, rfl, rfl⟩ := h
      exact ⟨rfl, rfl, rfl, hbound⟩

/-- The first page pins the chain as it stands. -/
theorem page_first (h : page R route q filters u = .ok (p, u'))
    (hcursor : query q "cursor" = none) :
    p.cut = u.cell.chain ∧ p.key = "" ∧
      (∃ start, decimalQuery q "after_seq" 0 maxInteger = .ok start ∧ p.position = start.getD 0) ∧
      p.extra = .obj [("offer_version", .num u.cell.store.offerHistory.length),
        ("registry_version", .num u.cell.store.registryHistory.length)] := by
  simp only [page, bind_ok, lift_ok, failIf_ok, now_ok, hcursor, chain_ok, look_ok, pure_ok] at h
  obtain ⟨limit, _, ⟨-, rfl⟩, _, _, ⟨-, rfl⟩, t, _, ⟨-, rfl⟩, start, _, ⟨hstart, rfl⟩, _, _,
    ⟨rfl, rfl⟩, _, _, ⟨rfl, rfl⟩, rfl, rfl⟩ := h
  exact ⟨rfl, rfl, ⟨start, hstart, rfl⟩, rfl⟩

theorem binding_inj {R' : Relay} {route' : Route} {filters' : Json}
    (h : binding R route filters = binding R' route' filters') : filters = filters' := by
  simp only [binding, Json.obj.injEq, List.cons.injEq, Prod.mk.injEq, true_and] at h
  exact h.1

/-- Any other page is the one its cursor stands for; the log and the
transparency chain are still those of the cut. -/
theorem page_resumed {token : String} {row : CursorRow}
    (h : page R route q filters u = .ok (p, u')) (hcursor : query q "cursor" = some token)
    (hrow : u.cell.store.cursors.find? token = some row) :
    row.binding = binding R route filters ∧ p.cut = row.cut ∧ p.position = row.position ∧
      p.key = row.key ∧ p.extra = row.extra ∧ p.cut.logId = u.cell.chain.logId ∧
      p.cut.generation = u.cell.chain.generation ∧
      p.cut.transparencyId = u.cell.chain.transparencyId := by
  simp only [page, bind_ok, lift_ok, failIf_ok, now_ok, hcursor, check_ok, resumePage,
    Check.bind_ok, Check.failIf_ok, Check.require_ok, Check.pure_ok, Bool.or_eq_false_iff,
    bne_eq_false_iff_eq] at h
  obtain ⟨limit, _, ⟨-, rfl⟩, _, _, ⟨-, rfl⟩, t, _, ⟨-, rfl⟩, ⟨_, -, row', hrow', _, hbinding, _, -,
    _, ⟨hlog, hgen⟩, _, htid, rfl⟩, rfl⟩ := h
  obtain rfl := Option.some.inj (hrow'.symm.trans hrow)
  exact ⟨hbinding, rfl, rfl, rfl, rfl, hlog, hgen, htid⟩

/-- The cursor of a page is a stored row that repeats the page. -/
theorem nextCursor_ok {next : Json} (h : nextCursor R p more u = .ok (next, u')) :
    (more = false ∧ next = .null ∧ u'.cell = u.cell) ∨
    (more = true ∧ ∃ token row, next = .str token ∧
      u'.cell.store.cursors.find? token = some row ∧
      row.binding = binding R p.resource p.filters ∧ row.cut = p.cut ∧
      row.position = p.position ∧ row.key = p.key ∧ row.extra = p.extra) := by
  unfold nextCursor at h
  rcases ite_ok.mp h with ⟨hmore, h⟩ | ⟨hmore, h⟩
  · obtain ⟨token, u₁, hcursor, h⟩ := bind_ok.mp h
    obtain ⟨rfl, rfl⟩ := pure_ok.mp h
    simp only [cursor, bind_ok, newId_ok, attempt_ok, check_ok, pure_ok] at hcursor
    obtain ⟨left, _, ⟨-, rfl⟩, right, _, ⟨-, rfl⟩, _, _, ⟨st, hst, rfl⟩, _, _, ⟨-, rfl⟩, rfl,
      rfl⟩ := hcursor
    obtain ⟨tab, htab, rfl⟩ := Option.map_eq_some_iff.mp hst
    exact .inr ⟨hmore, _, _, rfl, Table.find?_insert?_self htab, rfl, rfl, rfl, rfl, rfl⟩
  · obtain ⟨rfl, rfl⟩ := pure_ok.mp h
    exact .inl ⟨by simpa using hmore, rfl, rfl⟩

theorem Turned.limited (h : Turned R route q v u u' p p' more) :
    Limited R.cfg.limits q p.limit := by
  obtain ⟨u₁, hpage⟩ := h.opened
  exact (page_opened hpage).2.2.2

/-- An answer names no cursor when there is nothing more. -/
theorem Turned.next_null (h : Turned R route q v u u' p p' more) :
    v.get "next_cursor" = .null ↔ more = false := by
  obtain ⟨u₂, -, hnext⟩ := h.next
  obtain ⟨hmore, hnull, -⟩ | ⟨hmore, token, row, hsome, -⟩ := nextCursor_ok hnext
  · exact ⟨fun _ => hmore, fun _ => hnull⟩
  · refine ⟨fun hnull => ?_, fun he => ?_⟩
    · cases hsome.symm.trans hnull
    · rw [hmore] at he
      cases he

/-- The members of a finished listing. -/
structure Finished (p : Page) (items : List Json) (more log : Bool) (v : Json) : Prop where
  items : v.get "items" = .arr items
  more : v.get "has_more" = .bool more
  logId : v.get "log_id" = .str p.cut.logId
  headSeq : v.get "head_seq" = .num p.cut.headSeq
  scanned : log = true → v.get "head_hash" = .str p.cut.headHash ∧
    v.get "scan_through_seq" = .num p.position

theorem finish_ok {items : List Json} {log : Bool}
    (h : finish R p items more log u = .ok (v, u')) :
    nextCursor R p more u = .ok (v.get "next_cursor", u') ∧ Finished p items more log v := by
  simp only [finish, bind_ok, pure_ok] at h
  obtain ⟨next, u₁, hnext, rfl, rfl⟩ := h
  cases log with
  | false => exact ⟨hnext, rfl, rfl, rfl, rfl, fun h => Bool.noConfusion h⟩
  | true =>
      have hget (name : String) (hscan : name ≠ "scan_through_seq") (hhash : name ≠ "head_hash") :
          (((listing p items next more).set "head_hash" (.str p.cut.headHash)).set
            "scan_through_seq" (.num p.position)).get name =
          (listing p items next more).get name := by
        rw [Json.get_set_ne _ _ hscan, Json.get_set_ne _ _ hhash]
      refine ⟨?_, hget "items" (by decide) (by decide), hget "has_more" (by decide) (by decide),
        hget "log_id" (by decide) (by decide), hget "head_seq" (by decide) (by decide),
        fun _ => ⟨?_, ?_⟩⟩
      · exact (hget "next_cursor" (by decide) (by decide)).symm ▸ hnext
      · exact (Json.get_set_ne _ _ (by decide)).trans ((Json.get_set _ _ _ _).trans (if_pos rfl))
      · exact (Json.get_set _ _ _ _).trans (if_pos rfl)

end Turns

/-! ## The next page -/

section Next

variable {X : Crypto} {cfg : RelayConfig} {id : String} {es gap : List Event} {ev ev' : Event}
  {c c' : Chain} {m m' : Tx Json} {v v' : Json} {u u' t t' : Work}

/-- Between two reads of one run the chain was not deleted. -/
theorem Ran.earlier (h : Ran X (World.after X cfg es) id ev c m v u u')
    (h' : Ran X (World.after X cfg (es ++ gap)) id ev' c' m' v' t t') :
    Earlier (u.cell.store.ledger c) (t.cell.store.ledger c') := by
  obtain ⟨-, hkeeps⟩ := store_earlier X cfg es gap id h'.live
  obtain ⟨c₁, hc₁, hearlier⟩ := hkeeps c h.stored
  obtain rfl := Option.some.inj (hc₁.symm.trans h'.stored)
  rw [h.start, h'.start]
  exact hearlier

theorem Ran.settled (h : Ran X (World.after X cfg es) id ev c m v u u') :
    Settled X id (u.cell.store.ledger c) := by
  rw [h.start]
  exact (store_settled X cfg es id).ledger h.live h.stored

/-- A cursor that a read stored is there for the next one. -/
theorem Ran.cursor_kept (h : Ran X (World.after X cfg es) id ev c m v u u')
    (h' : Ran X (World.after X cfg (es ++ ev :: gap)) id ev' c' m' v' t t')
    {token : String} {row : CursorRow} (hrow : u'.cell.store.cursors.find? token = some row) :
    t.cell.store.cursors.find? token = some row := by
  have hafter : storeAfter X cfg (es ++ [ev]) id = u'.cell.store := by
    rw [storeAfter, World.after, run_snoc]
    exact h.left
  have happend : es ++ ev :: gap = (es ++ [ev]) ++ gap := by simp
  have haccrues := store_accrues X cfg (es ++ [ev]) gap id (happend ▸ h'.live)
  rw [hafter, ← happend] at haccrues
  rw [h'.start]
  exact haccrues.cursors token row hrow

/-- The next page goes on from where the page was left. -/
theorem Turned.resumed {route route' : Route} {q q' : Query} {p₁ p₁' p₂ p₂' : Page}
    {more more' : Bool}
    {R R' : Relay} (h : Ran X (World.after X cfg es) id ev c m v u u')
    (h' : Ran X (World.after X cfg (es ++ ev :: gap)) id ev' c' m' v' t t')
    (hturned : Turned R route q v u u' p₁ p₁' more)
    (hturned' : Turned R' route' q' v' t t' p₂ p₂' more') {token : String}
    (hnext : v.get "next_cursor" = .str token) (hcursor : query q' "cursor" = some token) :
    more = true ∧ p₂.From p₁' ∧ p₂.cut.logId = c'.logId ∧ p₂.cut.generation = c'.generation ∧
      p₂.cut.transparencyId = c'.transparencyId := by
  obtain ⟨u₂, hu₂, hstored⟩ := hturned.next
  rw [hnext] at hstored
  obtain ⟨-, hnull, -⟩ | ⟨hmore, token', row, htoken, hrow, hbinding, hcut, hposition, hkey,
    hextra⟩ := nextCursor_ok hstored
  · cases hnull
  · obtain rfl := Json.str.inj htoken
    obtain ⟨u₁, hpage⟩ := hturned'.opened
    obtain ⟨hbinding', hcut', hposition', hkey', hextra', hlog, hgen, htid⟩ :=
      page_resumed hpage hcursor (h.cursor_kept h' hrow)
    rw [h'.start] at hlog hgen htid
    exact ⟨hmore, ⟨hcut'.trans hcut, hposition'.trans hposition, hkey'.trans hkey,
      hextra'.trans hextra, binding_inj (hbinding'.symm.trans hbinding)⟩, hlog, hgen, htid⟩

end Next

/-- A read that a run answers page by page: each page but the first names the
cursor of the one before. `fs` are the events from the first page to the last
one, whatever else happens between them. -/
inductive Paged (X : Crypto) (cfg : RelayConfig) (id : String) :
    List Event → List (Call × Json) → List Event → Prop where
  | last {es ev call v} : Replied X (World.after X cfg es) id ev call v →
      Paged X cfg id es [(call, v)] [ev]
  | next {es ev call v token gap call' v' pages fs} :
      Replied X (World.after X cfg es) id ev call v → v.get "next_cursor" = .str token →
      query call'.query "cursor" = some token → call'.route = call.route →
      Paged X cfg id (es ++ ev :: gap) ((call', v') :: pages) fs →
      Paged X cfg id es ((call, v) :: (call', v') :: pages) (ev :: gap ++ fs)

theorem Paged.live {X : Crypto} {cfg : RelayConfig} {id : String} {es fs : List Event} {call : Call}
    {v : Json} {rest : List (Call × Json)} (h : Paged X cfg id es ((call, v) :: rest) fs)
    (hplain : call.route.plain = true) : (storeAfter X cfg es id).deletion = none := by
  cases h with
  | last hreplied | next hreplied _ _ _ _ =>
      obtain ⟨_, _, _, _, hran⟩ := hreplied.ran hplain
      exact hran.live

namespace Sample

/-- The admin reads a page. -/
def readRequest (route : Route) (k : Nat) (path param : String) (q : Query) : Request :=
  { request route "GET" path ((token k none "GET" path).set "query" (.str (queryString q)))
      param .null with query := q }

/-- The read that task `i` is about to execute, and its answer. -/
def replies (w : World) (i : Nat) (o : Oracle) : Option (Call × Json) :=
  match w.tasks[i]?, (w.step crypto (.resume i o .none)).tasks[i]? with
  | some (.start call _), some (.done (.json 200 v)) => some (call, v)
  | _, _ => none

theorem replied {w : World} {i : Nat} {o : Oracle} {call : Call} {v : Json}
    (h : replies w i o = some (call, v)) :
    Replied crypto w call.chain (.resume i o .none) call v := by
  unfold replies at h
  split at h
  · rename_i call' body v' htask hdone
    obtain ⟨rfl, rfl⟩ := Prod.mk.inj (Option.some.inj h)
    exact ⟨rfl, i, o, .none, body, rfl, htask, hdone⟩
  · cases h

end Sample

end PallaSync
