import PallaSync.Lib.Mirrored
import PallaSync.Resolution

/-!
# The order of an import's devices

Two runs of one import whose devices stand in different orders. After the
devices are stored the tables have the same rows, in another order
(`Store.Alike`), and nothing that comes later in the transaction can tell them
apart. So an import is accepted in every order or in none (`import_order_free`).
-/

namespace PallaSync

open Atomic Machine

/-! ## Stores with the same rows -/

/-- The same rows of objects, in any order; all else is equal. -/
def Store.Alike (st st' : Store) : Prop :=
  ∃ tab : Table ObjectRow ObjectRow.key, st' = { st with objects := tab } ∧
    ∀ q, tab.find? q = st.objects.find? q

/-- Work on stores with the same rows. -/
structure Work.Alike (w w' : Work) : Prop where
  same : w' = { w with cell := { w.cell with store := w'.cell.store } }
  store : w.cell.store.Alike w'.cell.store

section Alike

variable {st st' : Store} {w w' : Work} {X : Crypto}

theorem Store.Alike.find (h : st.Alike st') (q : Kind × String) :
    st'.objects.find? q = st.objects.find? q := by
  obtain ⟨tab, rfl, hfind⟩ := h
  exact hfind q

theorem Store.Alike.object (h : st.Alike st') (kind : Kind) (id : String) :
    st'.object kind id = st.object kind id := by
  rw [Store.object, Store.object, h.find]

theorem Store.Alike.mem (h : st.Alike st') (r : ObjectRow) :
    r ∈ st'.objects ↔ r ∈ st.objects := by
  constructor <;> intro hr <;> have hfind := Table.find?_of_mem hr
  · rw [h.find] at hfind
    exact Table.mem_of_find? hfind
  · rw [← h.find] at hfind
    exact Table.mem_of_find? hfind

theorem Store.Alike.perm (h : st.Alike st') : st'.objects.rows.Perm st.objects.rows := by
  have hnodup (t : Table ObjectRow ObjectRow.key) : t.rows.Nodup := t.keyed.of_map
  exact (List.perm_ext_iff_of_nodup (hnodup _) (hnodup _)).mpr h.mem

theorem sum_perm {α : Type} {xs ys : List α} (h : xs.Perm ys) (f : α → Nat) :
    Store.sum xs f = Store.sum ys f := by
  induction h with
  | nil => rfl
  | cons x _ ih =>
      show f x + Store.sum _ f = f x + Store.sum _ f
      rw [ih]
  | swap x y xs =>
      show f y + (f x + Store.sum xs f) = f x + (f y + Store.sum xs f)
      omega
  | trans _ _ ih ih' => exact ih.trans ih'

theorem Store.Alike.quota (h : st.Alike st') (R : Relay) : st'.quota R = st.quota R := by
  have hused : st'.used R.crypto = st.used R.crypto := by
    have hperm := h.perm
    obtain ⟨tab, rfl, -⟩ := h
    unfold Store.used
    rw [sum_perm hperm]
  rw [Store.quota, Store.quota, hused]

end Alike

abbrev Matched {α : Type} (m : Tx α) : Prop := Mirrored Work.Alike m

section Programs

variable {α : Type}

theorem matched_look {f : Store → α} (hf : ∀ st st' : Store, st.Alike st' → f st' = f st) :
    Matched (look f) :=
  .read fun _ _ h => hf _ _ h.store

theorem matched_check {f : Store → Chain → Except ApiError α}
    (hf : ∀ (st st' : Store) c x, st.Alike st' → f st c = .ok x → f st' c = .ok x) :
    Matched (check f) := fun w t x w' hr h => by
  obtain ⟨hx, rfl⟩ := check_ok.mp h
  have hchain : w'.cell.chain = w.cell.chain := by rw [hr.same]
  exact ⟨w', check_ok.mpr ⟨hchain ▸ hf _ _ _ _ hr.store hx, rfl⟩, hr⟩

theorem matched_newId : Matched newId := fun w t x w' hr h => by
  obtain ⟨rfl, rfl⟩ := newId_ok.mp h
  refine ⟨{ w' with tick := w'.tick + 1 }, newId_ok.mpr ⟨?_, rfl⟩, ?_, hr.store⟩
  · rw [hr.same]
  · rw [hr.same]

theorem matched_now : Matched now := fun w t x w' hr h => by
  obtain ⟨rfl, rfl⟩ := now_ok.mp h
  refine ⟨{ w' with tick := w'.tick + 1 }, now_ok.mpr ⟨?_, rfl⟩, ?_, hr.store⟩
  · rw [hr.same]
  · rw [hr.same]

theorem matched_chain : Matched chain := .read fun _ _ h => by rw [h.same]

theorem matched_setChain (f : Chain → Chain) : Matched (setChain f) :=
  .write fun w w' h => ⟨by rw [h.same], h.store⟩

theorem matched_setStore {f : Store → Store}
    (hf : ∀ st st' : Store, st.Alike st' → (f st).Alike (f st')) :
    Matched (setStore f) :=
  .write fun w w' h => ⟨by rw [h.same], hf _ _ h.store⟩

theorem putObject_matched (X : Crypto) (kind : Kind) (v : Json) (hkind : kind.sibling = none) :
    Matched (putObject X kind v none) := fun w t x w' hr h => by
  obtain ⟨rfl, rfl, o, ho, hhash⟩ | ⟨rfl, hfree, -, tab, htab, rfl⟩ := putObject_ok h
  · exact ⟨w', putObject_there ((hr.store.find _).trans ho) hhash, hr⟩
  · obtain ⟨tab', htab', hput⟩ := putObject_free X v none ((hr.store.find _).trans hfree) hkind
    refine ⟨_, hput, by rw [hr.same], tab', ?_, fun q => ?_⟩
    · obtain ⟨_, hst, -⟩ := hr.store
      dsimp only
      rw [hst]
    · rw [Table.find?_insert? htab', htab, hr.store.find]
      rfl

theorem save_matched (R : Relay) : Matched (save R) :=
  .bind matched_chain fun c =>
  .bind (matched_setStore fun st st' h => by
    obtain ⟨tab, rfl, hfind⟩ := h
    exact ⟨tab, rfl, hfind⟩) fun _ =>
  .bind matched_now fun _ => .bind (.require _ _) fun _ =>
  .bind (matched_setStore fun st st' h => by
    obtain ⟨tab, rfl, hfind⟩ := h
    exact ⟨tab, rfl, hfind⟩) fun _ =>
  matched_check fun st st' _ _ h hx => (h.quota R).trans hx

end Programs

/-! ## The transaction of an import -/

section Import

variable (X : Crypto) (admin : String) {st st' : Store}

theorem epochLinked_alike (h : st.Alike st') (v : Json) :
    epochLinked X st' v = epochLinked X st v := by
  rw [epochLinked, epochLinked, h.object]

theorem membersMatch_alike (h : st.Alike st') (v : Json) :
    membersMatch st' v = membersMatch st v := by
  simp only [membersMatch, h.object]

theorem parametersLinked_alike (h : st.Alike st') (v : Json) :
    parametersLinked X st' v = parametersLinked X st v := by
  rw [parametersLinked, parametersLinked, h.object]

theorem historicalKey_alike (h : st.Alike st') (v : Json) :
    historicalKey st' admin v = historicalKey st admin v := by
  rw [historicalKey, historicalKey, h.object]

theorem importedEnvelope_alike (h : st.Alike st') (v : Json) :
    importedEnvelope X st' v = importedEnvelope X st v := by
  rw [importedEnvelope, importedEnvelope, h.object]

theorem stageEpoch_matched (v : Json) : Matched (stageEpoch X admin v) :=
  .bind (matched_look fun _ _ h => epochLinked_alike X h v) fun _ =>
  .bind (.failIf _ _) fun _ =>
  .bind (matched_check fun _ _ _ _ h hx => (historicalKey_alike admin h v).trans hx) fun _ =>
  .bind (.lift _) fun _ =>
  .bind (matched_look fun _ _ h => membersMatch_alike h v) fun _ =>
  .bind (.failIf _ _) fun _ => .bind (putObject_matched X .epoch v rfl) fun _ => .pure ()

theorem stageEnvelope_matched (v : Json) : Matched (stageEnvelope X admin v) :=
  .bind (matched_check fun _ _ _ _ h hx => (importedEnvelope_alike X h v).trans hx) fun _ =>
  .bind (matched_check fun _ _ _ _ h hx => (historicalKey_alike admin h v).trans hx) fun _ =>
  .bind (.lift _) fun _ => .bind (putObject_matched X .envelope v rfl) fun _ => .pure ()

theorem stageCompaction_matched (v : Json) : Matched (stageCompaction X v) :=
  .bind (matched_look fun _ _ h => h.object _ _) fun _ => .bind (.require _ _) fun _ =>
  .bind (.lift _) fun _ => .bind (putObject_matched X .compaction v rfl) fun _ => .pure ()

theorem mem_stagedBodies_alike (h : st.Alike st') (kind : Kind) (v : Json) :
    v ∈ stagedBodies st' kind ↔ v ∈ stagedBodies st kind := by
  simp only [stagedBodies, List.mem_filterMap]
  exact exists_congr fun r => and_congr_left fun _ => h.mem r

/-- The staged history is checked as a whole, in whatever order. -/
theorem stagedHistory_alike (h : st.Alike st') (hx : stagedHistory X st = .ok ()) :
    stagedHistory X st' = .ok () := by
  simp only [stagedHistory, Check.bind_ok, Check.failIf_ok, Check.each_ok, Bool.not_eq_false',
    List.all_eq_true] at hx ⊢
  obtain ⟨u, hparameters, hepochs⟩ := hx
  refine ⟨u, fun p hp => ?_, fun e he => ?_⟩
  · rw [parametersLinked_alike X h]
    exact hparameters p ((mem_stagedBodies_alike h .parameters p).mp hp)
  · rw [epochLinked_alike X h, membersMatch_alike h]
    exact hepochs e ((mem_stagedBodies_alike h .epoch e).mp he)

theorem stageChain_matched (R : Relay) (p e : Json) (logId : String) :
    Matched (stageChain R p e logId) :=
  .bind matched_newId fun _ => .bind matched_newId fun _ =>
  .bind (matched_setChain _) fun _ => save_matched R

end Import

/-! ## Reordered requests -/

/-- The same request with its devices in another order. -/
def Reordered (v v' : Json) : Prop :=
  ∃ front ds ds' back, v = .obj (front ++ ("device_history", .arr ds) :: back) ∧
    v' = .obj (front ++ ("device_history", .arr ds') :: back) ∧ ds.Perm ds' ∧
    ∀ m ∈ front, m.1 ≠ "device_history"

section Requests

variable {X : Crypto} {v v' : Json}

theorem lookup_front {front back : List (String × Json)} {name : String} {x : Json}
    (hfront : ∀ m ∈ front, m.1 ≠ "device_history") :
    (front ++ ("device_history", x) :: back).lookup name =
      if name = "device_history" then some x else (front ++ back).lookup name := by
  rw [List.lookup_append, List.lookup_append, List.lookup_cons]
  by_cases hname : name = "device_history"
  · have hnone : front.lookup name = none := List.lookup_eq_none_iff.mpr fun m hm => by
      rw [bne_iff_ne, hname]
      exact (hfront m hm).symm
    rw [hnone, if_pos hname, hname, beq_self_eq_true, Option.none_or]
  · rw [if_neg hname, beq_eq_false_iff_ne.mpr hname]

theorem Reordered.get (h : Reordered v v') {name : String} (hname : name ≠ "device_history") :
    v'.get name = v.get name := by
  obtain ⟨front, ds, ds', back, rfl, rfl, -, hfront⟩ := h
  rw [Json.get, Json.get, lookup_front hfront, lookup_front hfront, if_neg hname, if_neg hname]

theorem Reordered.a (h : Reordered v v') {name : String} (hname : name ≠ "device_history") :
    a v' name = a v name := by rw [PallaSync.a, PallaSync.a, h.get hname]

theorem Reordered.devices (h : Reordered v v') :
    (PallaSync.a v "device_history").Perm (PallaSync.a v' "device_history") := by
  obtain ⟨front, ds, ds', back, rfl, rfl, hperm, hfront⟩ := h
  rw [PallaSync.a, PallaSync.a, Json.get, Json.get, lookup_front hfront, lookup_front hfront,
    if_pos rfl]
  exact hperm

theorem Reordered.fields (h : Reordered v v') :
    fields X v' importFields = fields X v importFields := by
  obtain ⟨front, ds, ds', back, rfl, rfl, -, hfront⟩ := h
  have hall : ∀ x : List Json, (importFields.all fun f =>
      ((front ++ ("device_history", Json.arr x) :: back).lookup f.1).any (checkType X f.2)) =
      (importFields.all fun f => f.1 == "device_history" ||
        ((front ++ back).lookup f.1).any (checkType X f.2)) := fun x => by
    simp [importFields, lookup_front hfront, checkType, Json.asArr]
  have hmembers : ∀ x : List Json, ((front ++ ("device_history", Json.arr x) :: back).all fun m =>
      ((importFields ++ []).lookup m.1).any fun t => checkType X t m.2) =
      ((front ++ back).all fun m => ((importFields ++ []).lookup m.1).any fun t =>
        checkType X t m.2) := fun x => by
    simp [importFields, checkType, Json.asArr, List.lookup_cons]
  rw [PallaSync.fields, PallaSync.fields, hall, hall, hmembers, hmembers]

theorem Reordered.objects (h : Reordered v v') {id : String}
    (hx : importObjects X id v = .ok ()) : importObjects X id v' = .ok () := by
  rw [importObjects, Check.each_ok] at hx ⊢
  rintro k hk
  obtain hx := Check.each_ok.mp (hx k hk)
  refine Check.each_ok.mpr fun obj hobj => hx obj ?_
  by_cases hname : k.2 = "device_history"
  · rw [hname] at hobj ⊢
    exact h.devices.mem_iff.mpr hobj
  · rwa [h.a hname] at hobj

end Requests

/-! ## Both runs -/

section Both

variable {X : Crypto} {R : Relay} {admin : String} {v v' x : Json} {w w₁ : Work}

/-- The objects of a reordered import are stored as those of the other. -/
theorem stageObjects_reordered (hre : Reordered v v') (he : w.cell.store.Embodied X)
    (hd : w.cell.store.Distinct X (a v "device_history"))
    (h : stageObjects X admin v w = .ok ((), w₁)) :
    ∃ w₁', stageObjects X admin v' w = .ok ((), w₁') ∧ w₁.Alike w₁' := by
  obtain ⟨_, w₂, hps, h⟩ := bind_ok.mp h
  obtain ⟨_, w₃, hdevices, h⟩ := bind_ok.mp h
  have hsame := stageParameters_sameDevices hps
  have he₂ := he.same hsame
  have hd₂ := hd.same hsame
  obtain ⟨ha, hall⟩ := (resolveDevices_iff _ he₂ hd₂).mp ⟨w₃, hdevices⟩
  have hperm := hre.devices
  obtain ⟨w₃', hdevices'⟩ := (resolveDevices_iff _ he₂ (hd₂.perm hperm)).mpr
    ⟨ha.perm hperm, fun d hd =>
      (hall d (hperm.mem_iff.mpr hd)).imp_left fun hc => hc.perm hperm⟩
  have halike : w₃.Alike w₃' := by
    obtain ⟨hcell, tab, hst, hfind⟩ := resolveDevices_stages he₂ hd₂ hdevices
    obtain ⟨hcell', tab', hst', hfind'⟩ := resolveDevices_stages he₂ (hd₂.perm hperm) hdevices'
    refine ⟨by rw [hcell, hcell'], tab', by rw [hst, hst'], fun q => ?_⟩
    rw [hst]
    exact (hfind' q).trans ((congrArg _ (takenRow_perm ha hd₂ hperm.symm q)).trans (hfind q).symm)
  have hrest : Matched (do
      each (stageEpoch X admin) (a v "epoch_history")
      each (stageEnvelope X admin) (a v "envelopes")
      each (stageCompaction X) (a v "compactions")) :=
    .bind (.each (stageEpoch_matched X admin) _) fun _ =>
    .bind (.each (stageEnvelope_matched X admin) _) fun _ => .each (stageCompaction_matched X) _
  obtain ⟨w₁', hw₁', halike'⟩ := hrest _ _ _ _ halike h
  refine ⟨w₁', ?_, halike'⟩
  have hparameters : a v' "parameters_history" = a v "parameters_history" := hre.a (by decide)
  have hepochs : a v' "epoch_history" = a v "epoch_history" := hre.a (by decide)
  have henvelopes : a v' "envelopes" = a v "envelopes" := hre.a (by decide)
  have hcompactions : a v' "compactions" = a v "compactions" := hre.a (by decide)
  rw [stageObjects, hparameters, hepochs, henvelopes, hcompactions]
  exact bind_ok.mpr ⟨(), w₂, hps, bind_ok.mpr ⟨(), w₃', hdevices', hw₁'⟩⟩

/-- What an import does once its objects are stored. -/
def stageRest (R : Relay) (parameters epoch : Json) (chainId : String) : Tx Json := do
  check fun st _ => stagedHistory R.crypto st
  let fresh ← newId
  let staged ← look (·.imports)
  let logId := (staged.map (·.logId)).getD fresh
  setStore fun st => { st with imports := st.imports.or (some { logId, parameters, epoch }) }
  let current ← look (·.chain)
  match current with
  | some _ => pure ()
  | none => stageChain R parameters epoch logId
  check fun st _ => st.quota R
  pure (.obj [("chain_id", .str chainId), ("log_id", .str logId), ("state", .str "staged")])

theorem stageRest_matched (parameters epoch : Json) (chainId : String) :
    Matched (stageRest R parameters epoch chainId) := by
  refine .bind (matched_check fun _ _ _ _ hst hx => stagedHistory_alike R.crypto hst hx) fun _ =>
    .bind matched_newId fun fresh => .bind (matched_look fun st st' hst => ?_) fun staged =>
    .bind (matched_setStore fun st st' hst => ?_) fun _ =>
    .bind (matched_look fun st st' hst => ?_) fun current => ?_
  · obtain ⟨tab, rfl, -⟩ := hst
    rfl
  · obtain ⟨tab, rfl, hfind⟩ := hst
    exact ⟨tab, rfl, hfind⟩
  · obtain ⟨tab, rfl, -⟩ := hst
    rfl
  · have hquota : Matched (check fun st _ => st.quota R) :=
      matched_check fun st st' _ _ hst hx => (hst.quota R).trans hx
    cases current with
    | some c => exact .bind hquota fun _ => .pure _
    | none =>
        exact .bind (stageChain_matched R parameters epoch _) fun _ => .bind hquota fun _ => .pure _

theorem stage_reordered (hre : Reordered v v') (he : w.cell.store.Embodied R.crypto)
    (hd : w.cell.store.Distinct R.crypto (a v "device_history"))
    (h : stage R v w = .ok (x, w₁)) : ∃ w₁', stage R v' w = .ok (x, w₁') ∧ w₁.Alike w₁' := by
  obtain ⟨_, _, h₁, h⟩ := bind_ok.mp h
  obtain ⟨hfields, rfl⟩ := lift_ok.mp h₁
  obtain ⟨_, _, h₂, h⟩ := bind_ok.mp h
  obtain ⟨hempty, rfl⟩ := failIf_ok.mp h₂
  obtain ⟨_, _, h₃, h⟩ := bind_ok.mp h
  obtain ⟨hhead, rfl⟩ := check_ok.mp h₃
  obtain ⟨_, _, h₄, h⟩ := bind_ok.mp h
  obtain ⟨hobjects, rfl⟩ := lift_ok.mp h₄
  obtain ⟨_, w₂, hstaged, h⟩ := bind_ok.mp h
  obtain ⟨w₂', hstaged', halike⟩ := stageObjects_reordered hre he hd hstaged
  obtain ⟨w₁', hw₁', halike'⟩ := stageRest_matched _ _ _ _ _ _ _ halike h
  refine ⟨w₁', ?_, halike'⟩
  have hps : a v' "parameters_history" = a v "parameters_history" := hre.a (by decide)
  have hes : a v' "epoch_history" = a v "epoch_history" := hre.a (by decide)
  rw [stage, hps, hes]
  exact bind_ok.mpr ⟨(), _, lift_ok.mpr ⟨hre.fields.trans hfields, rfl⟩,
    bind_ok.mpr ⟨(), _, failIf_ok.mpr ⟨hempty, rfl⟩, bind_ok.mpr ⟨(), _, check_ok.mpr ⟨hhead, rfl⟩,
      bind_ok.mpr ⟨(), _, lift_ok.mpr ⟨hre.objects hobjects, rfl⟩,
        bind_ok.mpr ⟨(), _, hstaged', hw₁'⟩⟩⟩⟩⟩

end Both

/-! ## The executed import -/

section Executed

variable {R : Relay} {call : Call} {v : Json} {st : Store} {o : Oracle} {reply : Reply} {b : Cell}

theorem executeTx_import (hroute : call.route = .importChain) : executeTx R call = (do
    lift call.auth.requireAdmin
    lift (allowed call.query [])
    let v ← stage R call.value
    pure (.json 202 v)) := by
  unfold executeTx
  rw [hroute]

/-- An import that was executed staged its histories. -/
theorem import_run_ok (hroute : call.route = .importChain) :
    (executeTx R call).run o st = .ok (reply, b) ↔
      call.auth.requireAdmin = .ok () ∧ allowed call.query [] = .ok () ∧
        ∃ x w, stage R call.value ⟨st.cell, o, 0⟩ = .ok (x, w) ∧ reply = .json 202 x ∧
          b = w.cell := by
  have hrun : (executeTx R call).run o st = .ok (reply, b) ↔
      ∃ w, executeTx R call ⟨st.cell, o, 0⟩ = .ok (reply, w) ∧ b = w.cell := by
    unfold Tx.run Store.cell
    cases executeTx R call ⟨⟨st, st.chain.getD .unset⟩, o, 0⟩ with
    | error e => simp
    | ok r =>
        obtain ⟨x, w⟩ := r
        simp only [Except.ok.injEq, Prod.mk.injEq]
        constructor
        · rintro ⟨rfl, rfl⟩
          exact ⟨w, ⟨rfl, rfl⟩, rfl⟩
        · rintro ⟨_, ⟨rfl, rfl⟩, rfl⟩
          exact ⟨rfl, rfl⟩
  rw [hrun, executeTx_import hroute]
  simp only [bind_ok, lift_ok, pure_ok]
  constructor
  · rintro ⟨_, ⟨_, _, ⟨hadmin, rfl⟩, _, _, ⟨hquery, rfl⟩, x, w, hstage, hreply, rfl⟩, hb⟩
    exact ⟨hadmin, hquery, x, w, hstage, hreply, hb⟩
  · rintro ⟨hadmin, hquery, x, w, hstage, hreply, hb⟩
    exact ⟨w, ⟨_, _, ⟨hadmin, rfl⟩, _, _, ⟨hquery, rfl⟩, x, w, hstage, hreply, rfl⟩, hb⟩

theorem executeTx_reordered (hroute : call.route = .importChain) (hre : Reordered call.value v)
    (he : st.Embodied R.crypto) (hd : st.Distinct R.crypto (a call.value "device_history"))
    (h : (executeTx R call).run o st = .ok (reply, b)) :
    ∃ b', (executeTx R { call with value := v }).run o st = .ok (reply, b') ∧
      b'.chain = b.chain ∧ b.store.Alike b'.store := by
  obtain ⟨hadmin, hquery, x, w, hstage, hreply, rfl⟩ := (import_run_ok hroute).mp h
  obtain ⟨w', hstage', halike⟩ := stage_reordered hre he hd hstage
  have hroute' : ({ call with value := v } : Call).route = .importChain := hroute
  exact ⟨w'.cell, (import_run_ok hroute').mpr ⟨hadmin, hquery, x, w', hstage', hreply, rfl⟩,
    by rw [halike.same], halike.store⟩

end Executed

/-- An import is accepted in one order of its devices as in any other, with the
same answer, and leaves the same rows. -/
theorem import_order_free (X : Crypto) (cfg : RelayConfig) (es : List Event) (id : String)
    (hdel : (storeAfter X cfg es id).deletion = none) {call : Call} {v : Json}
    (hroute : call.route = .importChain) (hre : Reordered call.value v)
    (hdistinct : (storeAfter X cfg es id).Distinct X (a call.value "device_history"))
    {o : Oracle} {reply : Reply} {b : Cell}
    (h : (executeTx ((World.after X cfg es).relay X) call).run o (storeAfter X cfg es id) =
      .ok (reply, b)) :
    ∃ b', (executeTx ((World.after X cfg es).relay X) { call with value := v }).run o
        (storeAfter X cfg es id) = .ok (reply, b') ∧
      b'.chain = b.chain ∧ b.store.Alike b'.store :=
  executeTx_reordered hroute hre (store_embodied X cfg es id hdel) hdistinct h

namespace Sample

/-- An import with the given devices. -/
def devicesBody (ds : List Json) : Json := .obj ([("compactions", .arr [])] ++
  ("device_history", .arr ds) :: [("envelopes", .arr []), ("epoch_history", .arr [epoch0]),
    ("parameters_history", .arr [parameters 0 .null])])

/-- The admin imports the given devices. -/
def devicesCall (ds : List Json) : Call :=
  { adminCall .importChain "" with value := devicesBody ds }

theorem devicesCall_facts :
    ((storeAfter crypto cfg genesisRun chainId).deletion.isNone &&
      decide ((vouchedDevices ++ (storeAfter crypto cfg genesisRun chainId).bodies .device).map
        crypto.objectHash).Nodup &&
      ((executeTx ((World.after crypto cfg genesisRun).relay crypto)
        (devicesCall vouchedDevices)).run (oracle 1500 7)
        (storeAfter crypto cfg genesisRun chainId)).toBool) = true := by
  decide +kernel

end Sample

/-- An import of two devices, one of which signed the other's certificate, in
both orders. -/
theorem import_order_free_vouched : ∃ (reply : Reply) (b b' : Cell),
    (executeTx ((World.after Sample.crypto Sample.cfg Sample.genesisRun).relay Sample.crypto)
        (Sample.devicesCall [Sample.vouched 3 2, Sample.device 2 0 0])).run (Sample.oracle 1500 7)
      (storeAfter Sample.crypto Sample.cfg Sample.genesisRun Sample.chainId) = .ok (reply, b) ∧
    (executeTx ((World.after Sample.crypto Sample.cfg Sample.genesisRun).relay Sample.crypto)
        (Sample.devicesCall [Sample.device 2 0 0, Sample.vouched 3 2])).run (Sample.oracle 1500 7)
      (storeAfter Sample.crypto Sample.cfg Sample.genesisRun Sample.chainId) = .ok (reply, b') ∧
    b.store.Alike b'.store := by
  have hfacts := Sample.devicesCall_facts
  simp only [Bool.and_eq_true, Option.isNone_iff_eq_none, decide_eq_true_eq] at hfacts
  obtain ⟨⟨hdel, hdistinct⟩, hrun⟩ := hfacts
  obtain ⟨⟨reply, b⟩, h⟩ : ∃ x, (executeTx ((World.after Sample.crypto Sample.cfg
      Sample.genesisRun).relay Sample.crypto) (Sample.devicesCall Sample.vouchedDevices)).run
      (Sample.oracle 1500 7)
      (storeAfter Sample.crypto Sample.cfg Sample.genesisRun Sample.chainId) = .ok x := by
    cases hx : (executeTx ((World.after Sample.crypto Sample.cfg Sample.genesisRun).relay
        Sample.crypto) (Sample.devicesCall Sample.vouchedDevices)).run (Sample.oracle 1500 7)
        (storeAfter Sample.crypto Sample.cfg Sample.genesisRun Sample.chainId) with
    | error e =>
        rw [hx] at hrun
        cases hrun
    | ok x => exact ⟨x, rfl⟩
  have hre : Reordered (Sample.devicesCall Sample.vouchedDevices).value
      (Sample.devicesBody [Sample.device 2 0 0, Sample.vouched 3 2]) :=
    ⟨_, _, _, _, rfl, rfl, .swap .., by decide⟩
  obtain ⟨b', h', -, halike⟩ := import_order_free Sample.crypto Sample.cfg Sample.genesisRun
    Sample.chainId hdel (rfl : (Sample.devicesCall Sample.vouchedDevices).route = .importChain) hre
    (distinct_of_bodies hdistinct) h
  exact ⟨reply, b, b', h, h', halike⟩

end PallaSync
