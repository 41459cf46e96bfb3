import PallaSync.Roster

/-!
# Ancestry

The parameters and the epochs a relay stores are two lines, each object naming
the hash of the one before it. What the chain itself commits takes the place
after the head of its line; an import is checked against its neighbours, but
only where these have no log position yet. `stored_ancestry_linked` says which
requests keep both lines whole.
-/

namespace PallaSync

open Atomic Machine

/-! ## The head of the lines -/

/-- The digest of the object is on file under its identifier. -/
def Ledger.Filed (X : Crypto) (L : Ledger) (k : Kind) (v : Json) : Prop :=
  ∃ o, L.objects.find? (k, objectId v k) = some o ∧ o.objectHash = X.objectHash v

/-- The parameters and the epoch of the chain are on file. -/
structure Anchored (X : Crypto) (L : Ledger) : Prop where
  parameters : L.Filed X .parameters L.chain.parameters
  epoch : L.Filed X .epoch L.chain.epoch

section Filing

variable {X : Crypto} {L L' : Ledger} {k : Kind} {v : Json}

theorem Ledger.Filed.mono (h : L.Filed X k v) (hg : Grows L L') : L'.Filed X k v := by
  obtain ⟨o, ho, hhash⟩ := h
  obtain ⟨o', ho', hl⟩ := hg.objects _ o ho
  exact ⟨o', ho', hl.objectHash.trans hhash⟩

theorem Logged.filed {entry : Option LogEntry} {r : Receipt} (h : Logged X k v entry r L L') :
    L'.Filed X k v := by
  cases h with
  | again ha => exact ha.object
  | fresh hf =>
      refine ⟨_, (hf.objects _).trans (if_pos rfl), ?_⟩
      cases ho : L.objects.find? (k, objectId v k) with
      | none => rfl
      | some o =>
          rw [adoptedRow_some]
          split <;> exact hf.same o ho

theorem Steps.filed (h : Steps X [.log k v] L L') : L'.Filed X k v := by
  obtain _ | ⟨hm, hnil⟩ := h
  obtain _ | _ := hnil
  cases hm with
  | log _ hl => exact hl.filed

theorem Committed.filed {commit : EpochCommit} {M M' : Ledger} {entry : Option LogEntry}
    {r : Receipt} (h : Committed X commit L M M' L' entry r) : L'.Filed X .epoch commit.epoch :=
  h.logged.filed.mono h.after.grows

theorem putObject_filed {w w' : Work} {log : Option (String × Nat)} {fresh : Bool}
    (h : putObject X k v log w = .ok (fresh, w')) : w'.cell.ledger.Filed X k v := by
  obtain ⟨-, rfl, o, ho, hd⟩ | ⟨-, -, -, tab, htab, rfl⟩ := putObject_ok h
  · exact ⟨o, ho, hd⟩
  · exact ⟨_, (htab _).trans (if_pos rfl), rfl⟩

/-- What is done with one of the items of a loop, and the path after it. -/
theorem each_path_of_mem {Q : Move → Ledger → Prop} {α : Type} {w w' : Work} {xs : List α} {x : α}
    {f : α → Tx Unit} (hf : ∀ x ∈ xs, ∀ w w', f x w = .ok ((), w') → Path X Q w.cell w'.cell)
    (h : each f xs w = .ok ((), w')) (hx : x ∈ xs) :
    ∃ w₁ w₂, f x w₁ = .ok ((), w₂) ∧ Path X Q w₂.cell w'.cell := by
  induction xs generalizing w with
  | nil => cases hx
  | cons y ys ih =>
      obtain ⟨w₁, hy, hys⟩ := each_cons_ok.mp h
      have hrest : ∀ x ∈ ys, ∀ w w', f x w = .ok ((), w') → Path X Q w.cell w'.cell :=
        fun z hz => hf z (List.mem_cons_of_mem _ hz)
      obtain rfl | hx := List.mem_cons.mp hx
      · exact ⟨w, w₁, hy, each_path hrest hys⟩
      · exact ih hrest hys hx

end Filing

section Anchors

variable {R : Relay} {v : Json} {a b mid : Cell} {cause : Option Call} {id : String}
  {st st' : Store}

theorem terminal_mem {key : String} (h : PallaSync.a v key ≠ []) :
    (PallaSync.a v key).getLastD .null ∈ PallaSync.a v key := by
  rw [List.getLastD_eq_getLast?, List.getLast?_eq_some_getLast h, Option.getD_some]
  exact List.getLast_mem h

/-- The parameters and the epochs of an import are on file after it. -/
theorem stageObjects_filed {X : Crypto} {admin : String} {w w' : Work}
    (h : stageObjects X admin v w = .ok ((), w')) :
    (∀ x ∈ PallaSync.a v "parameters_history", w'.cell.ledger.Filed X .parameters x) ∧
      ∀ x ∈ PallaSync.a v "epoch_history", w'.cell.ledger.Filed X .epoch x := by
  simp only [stageObjects, bind_ok] at h
  obtain ⟨_, w₁, h₁, _, w₂, h₂, _, w₃, h₃, _, w₄, h₄, h₅⟩ := h
  have p₂ : Path X (Stages X v) w₁.cell w₂.cell := resolveDevices_path (fun _ hd => hd) h₂
  have p₃ := each_path (fun _ hx _ _ => stageEpoch_path (v := v) hx) h₃
  have p₄ := each_path (fun _ hx _ _ => stageEnvelope_path (v := v) hx) h₄
  have p₅ := each_path (fun _ hx _ _ => stageCompaction_path (v := v) hx) h₅
  have p₄₅ := p₄.trans p₅
  refine ⟨fun p hp => ?_, fun e he => ?_⟩
  · obtain ⟨x, y, hput, hrest⟩ :=
      each_path_of_mem (fun _ hx _ _ => stageParameters_path (v := v) hx) h₁ hp
    simp only [stageParameters, bind_ok, failIf_ok, lift_ok, look_ok, pure_ok] at hput
    obtain ⟨_, _, ⟨-, rfl⟩, _, _, ⟨-, rfl⟩, _, _, ⟨-, rfl⟩, _, _, ⟨-, rfl⟩, _, _, hput, -, rfl⟩ :=
      hput
    obtain ⟨ms, hsteps⟩ := (hrest.trans (p₂.trans (p₃.trans p₄₅))).steps
    exact (putObject_filed hput).mono hsteps.grows
  · obtain ⟨x, y, hput, hrest⟩ :=
      each_path_of_mem (fun _ hx _ _ => stageEpoch_path (v := v) hx) h₃ he
    simp only [stageEpoch, bind_ok, failIf_ok, lift_ok, look_ok, check_ok, pure_ok] at hput
    obtain ⟨_, _, ⟨-, rfl⟩, _, _, ⟨-, rfl⟩, _, _, ⟨-, rfl⟩, _, _, ⟨-, rfl⟩, _, _, ⟨-, rfl⟩, _, _,
      ⟨-, rfl⟩, _, _, hput, -, rfl⟩ := hput
    obtain ⟨ms, hsteps⟩ := (hrest.trans p₄₅).steps
    exact (putObject_filed hput).mono hsteps.grows

/-- The terminal head of an import is on file after it. -/
theorem Imported.filed (h : Imported R v a mid b) :
    mid.ledger.Filed R.crypto .parameters (terminalParameters v) ∧
      mid.ledger.Filed R.crypto .epoch (terminalEpoch v) := by
  obtain ⟨hparams, hepochs⟩ := h.listed
  obtain ⟨w, w', -, rfl, hstage⟩ := h.staging
  have hfiled := stageObjects_filed hstage
  exact ⟨hfiled.1 _ (terminal_mem hparams), hfiled.2 _ (terminal_mem hepochs)⟩

/-- A re-seed leaves the chain under the parameters and the epoch it names. -/
theorem Reseeded.terms {imported : Import} {c : Chain} (h : Reseeded R v imported c a mid b) :
    b.chain.parameters = v.get "parameters" ∧ b.chain.epoch = v.get "epoch" := by
  obtain ⟨notice, hc⟩ := h.chain
  obtain ⟨M₀, M, M', entry, r, done, hpar, hcommit, -, hcomp⟩ := h.moves
  obtain ⟨N, hN, hdone⟩ := hcommit.split
  have hadopt : SameTerms (a.store.ledger c) mid.ledger :=
    (h.adopted.ordinary fun _ _ hq => Move.ordinary_of_logs hq.logs).sameTerms
  have hbefore : SameTerms mid.ledger N :=
    ((Ordinary.of_steps hpar (by simp [Move.ordinary])).trans hN).sameTerms
  have hafter : SameTerms done.ledger b.ledger :=
    (Ordinary.of_steps hcomp (by simp [Move.ordinary])).sameTerms
  rw [hdone] at hafter
  refine ⟨hafter.parameters.trans ((hadopt.trans hbefore).parameters.trans ?_), hafter.epoch⟩
  rw [hc]
  rfl

theorem Reseeded.succeeds {imported : Import} {c : Chain} (h : Reseeded R v imported c a mid b) :
    Succeeds R.crypto a.chain (v.get "epoch") := by
  obtain ⟨notice, hc⟩ := h.chain
  have hnext := (reseedEpochCheck_ok h.epochChecked).succession.next rfl
  have hadopt : SameTerms (a.store.ledger c) mid.ledger :=
    (h.adopted.ordinary fun _ _ hq => Move.ordinary_of_logs hq.logs).sameTerms
  have hepoch : mid.chain.epoch = a.chain.epoch := hadopt.epoch.trans (by rw [hc]; rfl)
  exact ⟨hepoch ▸ hnext.1, hnext.2.trans (by rw [Chain.epochHash, hepoch]; rfl)⟩

theorem Reseeded.filed {imported : Import} {c : Chain} (h : Reseeded R v imported c a mid b) :
    b.ledger.Filed R.crypto .parameters (v.get "parameters") ∧
      b.ledger.Filed R.crypto .epoch (v.get "epoch") := by
  obtain ⟨M₀, M, M', entry, r, done, hpar, hcommit, -, hcomp⟩ := h.moves
  exact ⟨hpar.filed.mono (hcommit.steps.grows.trans hcomp.grows),
    hcommit.filed.mono hcomp.grows⟩

/-- An act keeps the terms of the chain on file. -/
theorem Act.anchored (h : Act R cause a b) (hs : Sound R.crypto a.ledger)
    (ha : Anchored R.crypto a.ledger) : Anchored R.crypto b.ledger := by
  obtain ⟨ms, hsteps, -⟩ := (h.passage hs).steps
  have hg := hsteps.grows
  obtain ⟨he, hp⟩ | ⟨call, -, -, hrot⟩ | ⟨call, -, -, imported, c, mid, hre⟩ := h.terms
  · refine ⟨?_, ?_⟩
    · show b.ledger.Filed R.crypto .parameters b.chain.parameters
      exact hp ▸ ha.parameters.mono hg
    · show b.ledger.Filed R.crypto .epoch b.chain.epoch
      exact he ▸ ha.epoch.mono hg
  · obtain ⟨M, M', entry, r, hc⟩ := hrot.committed
    refine ⟨?_, ?_⟩
    · show b.ledger.Filed R.crypto .parameters b.chain.parameters
      exact hrot.parameters ▸ ha.parameters.mono hg
    · obtain ⟨N, -, hb⟩ := hc.split
      have hepoch : b.ledger.chain.epoch = (epochCommit call.value).epoch := by rw [hb]
      rw [hepoch]
      exact hc.filed
  · refine ⟨?_, ?_⟩
    · show b.ledger.Filed R.crypto .parameters b.chain.parameters
      exact hre.terms.1 ▸ hre.filed.1
    · show b.ledger.Filed R.crypto .epoch b.chain.epoch
      exact hre.terms.2 ▸ hre.filed.2

/-- The terms of an undeleted chain are on file. -/
def Store.Anchored (X : Crypto) (st : Store) : Prop :=
  st.deletion = none → ∀ c, st.chain = some c → PallaSync.Anchored X (st.ledger c)

theorem Acted.anchored (h : Acted R id cause st st') (hdel : st.deletion = none)
    (hs : st.Holds (Settled R.crypto id)) (ha : st.Anchored R.crypto) : st'.Anchored R.crypto := by
  intro _ c' hc'
  cases h with
  | absent _ hnone _ =>
      rw [hnone] at hc'
      cases hc'
  | begun _ _ _ hbegun _ hstored hledger =>
      obtain rfl := Option.some.inj (hstored.symm.trans hc')
      rw [hledger]
      obtain ⟨logId, tid, notice, hc⟩ := hbegun.chain
      obtain ⟨M₀, M, M', M₁, entry, r, ms, hpar, hcommit, hms, hrest⟩ := hbegun.moves
      obtain ⟨N, hN, hM₁⟩ := hcommit.split
      have hafter : SameTerms M₁ _ := (Ordinary.of_steps hrest fun m hm =>
        Move.ordinary_of_isEvidence (hms m hm)).sameTerms
      have hbefore := ((Ordinary.of_steps hpar (by simp [Move.ordinary])).trans hN).sameTerms
      refine ⟨?_, ?_⟩
      · rw [hafter.parameters, hM₁, show (N.atEpoch _).chain.parameters = _ from
          hbefore.parameters, hc]
        exact hpar.filed.mono (hcommit.steps.grows.trans hrest.grows)
      · rw [hafter.epoch, hM₁]
        exact hcommit.filed.mono hrest.grows
  | staged _ _ _ himp hstaged _ hstored hledger =>
      obtain rfl := Option.some.inj (hstored.symm.trans hc')
      rw [hledger, hstaged.ledger]
      obtain ⟨logId, tid, notice, hc⟩ := hstaged.chain
      have hfiled := himp.filed
      rw [hc]
      exact ⟨hfiled.1, hfiled.2⟩
  | acted hc hact hstored hledger =>
      obtain rfl := Option.some.inj (hstored.symm.trans hc')
      rw [hledger]
      exact hact.anchored (hs.ledger hdel hc).sound (ha hdel _ hc)

end Anchors

/-! ## The lines -/

/-- A line of objects: their kind, the member with the number of an object,
and the one with the hash of the object before it. -/
structure Lineage where
  kind : Kind
  number : String
  previous : String

def parametersLine : Lineage := ⟨.parameters, "generation", "previous_parameters_hash"⟩

def epochLine : Lineage := ⟨.epoch, "epoch", "previous_epoch_hash"⟩

def lineages : List Lineage := [parametersLine, epochLine]

/-- Of two stored neighbours of the line the second names the first. -/
def Store.Linked (X : Crypto) (st : Store) (l : Lineage) : Prop :=
  ∀ g x y, st.object l.kind (toString g) = some x → st.object l.kind (toString (g + 1)) = some y →
    s y l.previous = X.objectHash x

/-- The successor of `x`, if it is stored already, names it. -/
def Store.Heeds (X : Crypto) (st : Store) (l : Lineage) (x : Json) : Prop :=
  ∀ y, st.object l.kind (toString (n x l.number + 1)) = some y → s y l.previous = X.objectHash x

/-- The successor of `x`, if it has a position in a log already, names it. -/
def Store.HeedsInLog (X : Crypto) (st : Store) (l : Lineage) (x : Json) : Prop :=
  ∀ o y, st.objects.find? (l.kind, toString (n x l.number + 1)) = some o → o.logId.isSome →
    o.body = some y → s y l.previous = X.objectHash x

/-- What the event puts on a line is named by the object stored right above
it: by one with a log position where the object is imported, by any where the
object is committed. -/
structure KeepsLines (X : Crypto) (id : String) (w : World) (ev : Event) : Prop where
  imports : ∀ call, w.acting ev = some call → call.chain = id → call.route = .importChain →
    terminalHead X (w.store id) (terminalParameters call.value) (terminalEpoch call.value) =
      .ok () →
    ∀ l ∈ lineages, ∀ x ∈ a call.value l.kind.history,
      (w.store id).object l.kind (toString (n x l.number)) = none →
      (w.store id).HeedsInLog X l x
  rotations : ∀ call c, w.acting ev = some call → call.chain = id →
    call.route = .epochsPost ∨ call.route = .revoke → (w.store id).chain = some c →
    epochCheck (w.relay X) (w.store id) c call.auth call.value call.targetDevice = .ok () →
    (w.store id).Heeds X epochLine (call.value.get "epoch")
  reseeds : ∀ call c imported, w.acting ev = some call → call.chain = id → call.route = .reseed →
    (w.store id).chain = some c →
    reseedCheck (w.relay X) (w.store id) c call.value = .ok imported →
    (w.store id).Heeds X epochLine (call.value.get "epoch") ∧
      (w.store id).Heeds X parametersLine (call.value.get "parameters")

section Lines

variable {X : Crypto} {st st' : Store} {c c' : Chain} {l : Lineage} {x y e head : Json}

theorem Lineage.objectId (hl : l ∈ lineages) (x : Json) :
    PallaSync.objectId x l.kind = toString (n x l.number) := by
  obtain rfl | hl := List.mem_cons.mp hl
  · rfl
  · obtain rfl := List.mem_singleton.mp hl
    rfl

theorem Lineage.kept (hl : l ∈ lineages) : ¬l.kind.removable := by
  obtain rfl | hl := List.mem_cons.mp hl
  · simp [parametersLine, Kind.removable]
  · obtain rfl := List.mem_singleton.mp hl
    simp [epochLine, Kind.removable]

/-- The body that is stored under an identifier has it, and the row's digest. -/
theorem Sound.object {k : Kind} {id : String} (hs : Sound X (st.ledger c))
    (h : st.object k id = some x) : PallaSync.objectId x k = id ∧
      ∃ o, st.objects.find? (k, id) = some o ∧ o.body = some x ∧ o.objectHash = X.objectHash x := by
  obtain ⟨o, ho, hb⟩ := object_eq_some.mp h
  obtain ⟨hk, hid⟩ := Prod.mk.inj (Table.key_of_find? ho : o.key = (k, id))
  obtain ⟨hhash, hobjid⟩ := (hs.object_of_find? ho).body x hb
  rw [hk, hid] at hobjid
  exact ⟨hobjid, o, ho, hb, hhash.symm⟩

/-- What is stored of a line later was stored before, or is new to the chain. -/
theorem object_old_or_new {id : String} (hs : Sound X (st.ledger c))
    (hs' : Sound X (st'.ledger c')) (hg : Grows (st.ledger c) (st'.ledger c')) {k : Kind}
    (hk : ¬k.removable) (hx : st'.object k id = some x) :
    st.object k id = some x ∨ st.object k id = none ∧ ¬st.Has k x := by
  cases hold : st.object k id with
  | some y =>
      obtain ⟨o, ho, hb⟩ := object_eq_some.mp hold
      obtain ⟨o', ho', hb'⟩ := hg.body hk ho hb
      rw [object_eq_some.mpr ⟨o', ho', hb'⟩] at hx
      exact .inl hx
  | none =>
      refine .inr ⟨rfl, fun hhas => ?_⟩
      obtain ⟨o, ho, -⟩ := hs.has_row hhas
      rw [(hs'.object hx).1] at ho
      cases hb : o.body with
      | none =>
          have hkind : o.kind = k := congrArg Prod.fst (Table.key_of_find? ho : o.key = _)
          exact hk (hkind ▸ (hs.object_of_find? ho).removed hb)
      | some y =>
          rw [object_eq_some.mpr ⟨o, ho, hb⟩] at hold
          cases hold

/-- Nothing new on the line. -/
theorem Store.Linked.kept (h : st.Linked X l) (hs : Sound X (st.ledger c))
    (hs' : Sound X (st'.ledger c')) (hg : Grows (st.ledger c) (st'.ledger c')) (hl : l ∈ lineages)
    (hnew : ∀ x, st'.Has l.kind x → st.Has l.kind x) : st'.Linked X l := by
  have old : ∀ {id x}, st'.object l.kind id = some x → st.object l.kind id = some x :=
    fun hx => by
      obtain hx' | ⟨-, hnot⟩ := object_old_or_new hs hs' hg (Lineage.kept hl) hx
      · exact hx'
      · exact absurd (hnew _ (.of_object hx)) hnot
  exact fun g x y hx hy => h g x y (old hx) (old hy)

/-- One new object on the line, right above the head. -/
theorem Store.Linked.extended (h : st.Linked X l) (hs : Sound X (st.ledger c))
    (hs' : Sound X (st'.ledger c')) (hg : Grows (st.ledger c) (st'.ledger c')) (hl : l ∈ lineages)
    (hnew : ∀ x, st'.Has l.kind x → st.Has l.kind x ∨ x = e)
    (hhead : (st.ledger c).Filed X l.kind head) (hnumber : n e l.number = n head l.number + 1)
    (hprev : s e l.previous = X.objectHash head) (hheeds : st.Heeds X l e) : st'.Linked X l := by
  have old : ∀ {id x}, st'.object l.kind id = some x →
      st.object l.kind id = some x ∨ x = e ∧ id = toString (n e l.number) := fun hx => by
    obtain hx' | ⟨-, hnot⟩ := object_old_or_new hs hs' hg (Lineage.kept hl) hx
    · exact .inl hx'
    · obtain hhas | rfl := hnew _ (.of_object hx)
      · exact absurd hhas hnot
      · exact .inr ⟨rfl, (hs'.object hx).1.symm.trans (Lineage.objectId hl _)⟩
  intro g x y hx hy
  obtain hx' | ⟨rfl, hxid⟩ := old hx
  · obtain hy' | ⟨rfl, hyid⟩ := old hy
    · exact h g x y hx' hy'
    · -- the new object comes after the head
      have hg := toString_inj hyid
      obtain ⟨o, ho, hhash⟩ := hhead
      obtain ⟨-, o', ho', -, hhash'⟩ := hs.object hx'
      rw [Lineage.objectId hl, show n head l.number = g by omega] at ho
      obtain rfl := Option.some.inj (ho'.symm.trans ho)
      rw [hprev, ← hhash, hhash']
  · have hg := toString_inj hxid
    obtain hy' | ⟨rfl, hyid⟩ := old hy
    · exact hheeds y (hg ▸ hy')
    · have := toString_inj hyid
      omega

theorem Store.Linked.congr (h : st.Linked X l) (ho : st'.objects = st.objects) :
    st'.Linked X l := by
  have hobj : ∀ k id, st'.object k id = st.object k id := fun k id => by
    rw [Store.object, Store.object, ho]
  exact fun g x y hx hy => h g x y (hobj _ _ ▸ hx) (hobj _ _ ▸ hy)

/-- An object that is staged, and has not been logged, was checked against the
object before it. -/
theorem stagedHistory_links {g : Nat} {o : ObjectRow} (h : stagedHistory X st = .ok ())
    (hl : l ∈ lineages) (ho : st.objects.find? (l.kind, toString (g + 1)) = some o)
    (hlog : o.logId = none) (hy : o.body = some y) (hnumber : n y l.number = g + 1)
    (hx : st.object l.kind (toString g) = some x) : s y l.previous = X.objectHash x := by
  simp only [stagedHistory, Check.bind_ok, Check.failIf_ok, Check.each_ok, Bool.not_eq_false',
    List.all_eq_true] at h
  obtain ⟨_, hparams, hepochs⟩ := h
  have hmem : y ∈ stagedBodies st l.kind := by
    refine List.mem_filterMap.mpr ⟨o, Table.mem_of_find? ho, ?_⟩
    rw [if_pos ⟨congrArg Prod.fst (Table.key_of_find? ho : o.key = _), hlog⟩]
    exact hy
  obtain rfl | hl := List.mem_cons.mp hl
  · have hlink := hparams y hmem
    simp only [parametersLine] at hnumber hx ⊢
    simp only [parametersLinked, hnumber, Nat.add_sub_cancel, hx, Option.all_some,
      Bool.or_eq_true, beq_iff_eq] at hlink
    exact hlink.resolve_left (Nat.succ_ne_zero g)
  · obtain rfl := List.mem_singleton.mp hl
    obtain ⟨_, hlink, -⟩ := hepochs y hmem
    simp only [epochLine] at hnumber hx ⊢
    simp only [epochLinked, hnumber, Nat.add_sub_cancel, hx, Option.all_some,
      Bool.or_eq_true, beq_iff_eq] at hlink
    exact hlink.resolve_left (Nat.succ_ne_zero g)

/-- What is stored after staging was there before, or is listed and has no position. -/
theorem Guided.staged_from {v : Json} {ms : List Move} {L L' : Ledger} {q : Kind × String}
    {o : ObjectRow} (h : Guided X (Stages X v) ms L L') (ho : L'.objects.find? q = some o) :
    L.objects.find? q = some o ∨
      ∃ x ∈ a v q.1.history, PallaSync.objectId x q.1 = q.2 ∧ o = newRow X q.1 x none := by
  induction h with
  | nil => exact .inl ho
  | cons hq hm _ ih =>
      refine (ih ho).elim (fun hmid => ?_) .inr
      cases hm with
      | stage _ hs =>
          rw [hs.objects] at hmid
          split at hmid
          · rename_i hkey
            cases hold : Table.find? _ q with
            | some o' =>
                rw [hold, Option.getD_some] at hmid
                exact .inl hmid
            | none =>
                rw [hold, Option.getD_none] at hmid
                obtain rfl := Option.some.inj hmid
                subst hkey
                exact .inr ⟨_, hq.1, rfl, rfl⟩
          · exact .inl hmid
      | log _ _ | enlist _ _ | partAgain | part _ | evidence _ | revoke _ | activate _ | setEpoch
      | prune _ _ _ _ _ | handoff _ _ | expire _ _ _ _ | found _ _ | reincarnate _ _ =>
          exact hq.elim

/-- Staging gives no object a position. -/
theorem Guided.staged_row {v : Json} {ms : List Move} {L L' : Ledger} {q : Kind × String}
    {o : ObjectRow} (h : Guided X (Stages X v) ms L L') (ho : L'.objects.find? q = some o)
    (hlog : o.logId.isSome) : L.objects.find? q = some o := by
  refine (h.staged_from ho).resolve_right fun ⟨x, _, _, hnew⟩ => ?_
  rw [hnew] at hlog
  cases hlog

end Lines

section Steps

variable {X : Crypto} {cfg : RelayConfig} {w : World} {id : String} {ev : Event} {l : Lineage}
  {cause : Option Call} {st' : Store}

/-- An import links what it stages; what was logged before must name it. -/
theorem Imported.linked {R : Relay} {v : Json} {a b mid : Cell} {c : Chain}
    (h : Imported R v a mid b) (hs : Sound R.crypto (mid.store.ledger c)) (hl : l ∈ lineages)
    (hlogged : ∀ g x o y, a.store.objects.find? (l.kind, toString (g + 1)) = some o →
      o.logId.isSome → o.body = some y → mid.store.object l.kind (toString g) = some x →
      s y l.previous = R.crypto.objectHash x) : mid.store.Linked R.crypto l := by
  intro g x y hx hy
  obtain ⟨hid, o, ho, hbody, -⟩ := hs.object hy
  rw [Lineage.objectId hl] at hid
  cases hlog : o.logId with
  | none => exact stagedHistory_links h.history hl ho hlog hbody (toString_inj hid) hx
  | some log =>
      obtain ⟨ms, hg⟩ := h.path.guided
      have hsome : o.logId.isSome := by rw [hlog]; rfl
      exact hlogged g x o y (hg.staged_row ho hsome) hsome hbody hx

/-- An act puts new objects on the lines only where they belong. -/
theorem Act.linked {c : Chain} {b : Cell} (h : Act (w.relay X) cause ⟨w.store id, c⟩ b)
    (hcause : ∀ call, cause = some call → w.acting ev = some call ∧ call.chain = id)
    (hc : (w.store id).chain = some c) (hs : Sound X ((w.store id).ledger c))
    (hs' : Sound X b.ledger) (ha : Anchored X ((w.store id).ledger c)) (hC : KeepsLines X id w ev)
    (hl : l ∈ lineages) (hlink : (w.store id).Linked X l) : b.store.Linked X l := by
  have hg : Grows ((w.store id).ledger c) b.ledger := by
    obtain ⟨ms, hsteps, -⟩ := (h.passage hs).steps
    exact hsteps.grows
  have kept : (∀ x, b.store.Has l.kind x → (w.store id).Has l.kind x) → b.store.Linked X l :=
    hlink.kept hs hs' hg hl
  have hcontrol : l.kind.control = true ∧ l.kind ≠ .envelope := by
    obtain rfl | hl := List.mem_cons.mp hl
    · exact ⟨rfl, by simp [parametersLine]⟩
    · obtain rfl := List.mem_singleton.mp hl
      exact ⟨rfl, by simp [epochLine]⟩
  have outside : ∀ {kinds v x}, .parameters ∉ kinds → .epoch ∉ kinds →
      ¬Carried kinds v l.kind x := fun hp he hcar => by
    obtain rfl | hl := List.mem_cons.mp hl
    · exact hp hcar.kind
    · obtain rfl := List.mem_singleton.mp hl
      exact he hcar.kind
  cases h with
  | still h => exact kept fun x hx => h.has hx
  | item _ h =>
      refine kept fun x hx => (h.has hx).resolve_right ?_
      rintro ⟨-, ⟨he, -⟩ | ⟨hk, -, -⟩⟩
      · exact hcontrol.2 he
      · rw [hcontrol.1] at hk
        cases hk
  | evidence hms h =>
      refine kept fun x hx => h.steps.has_of_none (fun m hm => ?_) hx
      have := hms m hm
      cases m <;> first | rfl | exact this.elim
  | expired h =>
      refine kept fun x hx => h.steps.has_of_none (fun m hm => ?_) hx
      obtain ⟨e, -, rfl⟩ := List.mem_map.mp hm
      rfl
  | imported hroute h hstill =>
      rename_i call mid
      have hobj : b.store.objects = mid.store.objects := congrArg Ledger.objects hstill.ledger
      have hsmid : Sound X mid.ledger := h.path.sound hs
      obtain ⟨ms, hsteps⟩ := h.path.steps
      refine Store.Linked.congr (h.linked hsmid hl fun g x o y ho hsome hy hx => ?_) hobj
      obtain hx' | ⟨hnone, hnot⟩ :=
        object_old_or_new hs hsmid hsteps.grows (Lineage.kept hl) hx
      · exact hlink g x y hx' (object_eq_some.mpr ⟨o, ho, hy⟩)
      · have hnumber := toString_inj ((hsmid.object hx).1.symm.trans (Lineage.objectId hl x))
        subst hnumber
        have hmem : x ∈ a call.value l.kind.history := by
          have hb : b.store.Has l.kind x := .of_object (by rw [Store.object, hobj]; exact hx)
          exact ((h.has hb).resolve_left hnot).2
        exact hC.imports call (hcause call rfl).1 (hcause call rfl).2 hroute h.head l hl x hmem
          hnone o y ho hsome hy
  | mutated _ _ h hdel =>
      rename_i call _ _
      cases h with
      | still h => exact kept fun x hx => h.has hx
      | deleted _ hd _ _ => exact absurd (hdel.symm.trans hd) (by simp)
      | acknowledged _ h =>
          exact kept fun x hx => h.moves.steps.has_of_none (by simp [Move.brings]) hx
      | enrolled _ h hst =>
          exact kept fun x hx => (h.has (hst.has hx)).resolve_right (outside (by simp) (by simp))
      | snapshotted _ h =>
          exact kept fun x hx => (h.has hx).resolve_right (outside (by simp) (by simp))
      | pruned _ _ h =>
          exact kept fun x hx => (h.has hx).resolve_right (outside (by simp) (by simp))
      | rotated hroute h =>
          have hnext := (epochCheck_ok h.checked).bundle.succession.next rfl
          have hheeds := hC.rotations call c (hcause call rfl).1 (hcause call rfl).2 hroute hc
            h.checked
          obtain rfl | hl' := List.mem_cons.mp hl
          · refine kept fun x hx => (h.has hx).resolve_right fun hcar => ?_
            have hk := hcar.kind
            simp [parametersLine, rotatedKinds] at hk
          · obtain rfl := List.mem_singleton.mp hl'
            exact hlink.extended hs hs' hg hl (fun x hx => (h.has hx).imp_right (·.epoch rfl))
              ha.epoch hnext.1 hnext.2 hheeds
      | reseeded hroute _ h =>
          have hok := reseedCheck_ok h.checked
          obtain ⟨hepoch, hparams⟩ := hC.reseeds call c _ (hcause call rfl).1 (hcause call rfl).2
            hroute hc h.checked
          obtain rfl | hl' := List.mem_cons.mp hl
          · exact hlink.extended hs hs' hg hl (fun x hx => (h.has hx).imp_right (·.parameters rfl))
              ha.parameters hok.generation hok.previous hparams
          · obtain rfl := List.mem_singleton.mp hl'
            have hsucc := h.succeeds
            exact hlink.extended hs hs' hg hl (fun x hx => (h.has hx).imp_right (·.epoch rfl))
              ha.epoch hsucc.number hsucc.previous hepoch

theorem Acted.linked (h : Acted (w.relay X) id cause (w.store id) st')
    (hcause : ∀ call, cause = some call → w.acting ev = some call ∧ call.chain = id)
    (hdel : (w.store id).deletion = none) (hdel' : st'.deletion = none)
    (hs : (w.store id).Holds (Settled X id)) (hs' : st'.Holds (Settled X id))
    (ha : (w.store id).Anchored X) (hC : KeepsLines X id w ev) (hl : l ∈ lineages)
    (hlink : (w.store id).Linked X l) : st'.Linked X l := by
  cases h with
  | absent _ _ hsame => exact hlink.congr (congrArg Ledger.objects (hsame .unset))
  | begun hnone _ _ hbegun _ hstored hledger =>
      rename_i call c b _ _ _
      have hsb : Sound X (st'.ledger b.chain) := (hs'.ledger hdel' hstored).sound
      have hnew : ∀ {x}, st'.Has l.kind x → Carried reseededKinds call.value l.kind x :=
        fun hx => by
          have hx : (st'.ledger b.chain).Has l.kind _ := hx
          rw [hledger] at hx
          exact (hbegun.has hx).resolve_left (hs.bare hdel hnone).not_has
      intro g x y hx hy
      have hxnew := hnew (.of_object hx)
      have hynew := hnew (.of_object hy)
      -- a genesis brings one object of each line
      have hsame : x = y := by
        obtain rfl | hl := List.mem_cons.mp hl
        · exact (hxnew.parameters rfl).trans (hynew.parameters rfl).symm
        · obtain rfl := List.mem_singleton.mp hl
          exact (hxnew.epoch rfl).trans (hynew.epoch rfl).symm
      have hnumber := (hsb.object hx).1.symm.trans (hsame ▸ (hsb.object hy).1)
      exact absurd (toString_inj hnumber) (Nat.succ_ne_self g).symm
  | staged hnone _ _ himp hstaged _ hstored hledger =>
      have hsb := (hs'.ledger hdel' hstored).sound
      rw [hledger, hstaged.ledger] at hsb
      have hobj := congrArg Ledger.objects (hledger.trans hstaged.ledger)
      refine Store.Linked.congr (himp.linked hsb hl fun g x o y ho _ _ _ => ?_) hobj
      have hno := (hs.bare hdel hnone).objects (l.kind, toString (g + 1))
      cases hno.symm.trans ho
  | acted hc hact hstored hledger =>
      rename_i c b
      have hsb : Sound X b.ledger := hledger ▸ (hs'.ledger hdel' hstored).sound
      refine Store.Linked.congr (hact.linked hcause hc (hs.ledger hdel hc).sound hsb
        (ha hdel c hc) hC hl hlink) ?_
      exact congrArg Ledger.objects hledger

/-- What a step keeps of the lines. -/
structure Store.Lined (X : Crypto) (st : Store) : Prop where
  anchored : st.Anchored X
  linked : st.deletion = none → ∀ l ∈ lineages, st.Linked X l

theorem step_lined (hw : w.Bounded cfg) (hs : (w.store id).Holds (Settled X id))
    (hC : KeepsLines X id w ev) (h : (w.store id).Lined X) :
    ((w.step X ev).store id).Lined X := by
  have hs' := step_settled X hw hs ev
  refine ⟨fun hdel' => ?_, fun hdel' => ?_⟩ <;>
    obtain ⟨hdel, he | ⟨cause, hacted, hcause⟩⟩ := step_acted X hw ev id hdel'
  · exact he ▸ h.anchored hdel
  · exact hacted.anchored hdel hs h.anchored hdel'
  · exact he ▸ h.linked hdel
  · exact fun l hl => hacted.linked hcause hdel hdel' hs hs' h.anchored hC hl (h.linked hdel l hl)

/-- In every run in which what a request puts on the lines of parameters and
of epochs is named by the object stored right above it, any two neighbours
that are stored are linked. -/
theorem stored_ancestry_linked (X : Crypto) (cfg : RelayConfig) (id : String) (es : List Event)
    (hes : StepsMeet (World.step X) (KeepsLines X id) (World.initial cfg) es)
    (hdel : (storeAfter X cfg es id).deletion = none) (g : Nat) (x y : Json) :
    ((storeAfter X cfg es id).object .parameters (toString g) = some x →
      (storeAfter X cfg es id).object .parameters (toString (g + 1)) = some y →
      s y "previous_parameters_hash" = X.objectHash x) ∧
    ((storeAfter X cfg es id).object .epoch (toString g) = some x →
      (storeAfter X cfg es id).object .epoch (toString (g + 1)) = some y →
      s y "previous_epoch_hash" = X.objectHash x) := by
  have h : (storeAfter X cfg es id).Lined X :=
    store_invariant_of (C := KeepsLines X id)
      ⟨fun _ _ hc => (by cases hc), fun _ _ _ _ _ _ hx => (by cases hx)⟩
      (fun w ev hw hs hC h => step_lined hw hs hC h) hes
  exact ⟨h.linked hdel parametersLine (by simp [lineages]) g x y,
    h.linked hdel epochLine (by simp [lineages]) g x y⟩

end Steps

namespace Sample

/-- An epoch the chain has not come to, after none that it has. -/
def epochAhead : Json := epochRecord 0 2 (hashOf recovery0) "scheduled" [1] [] recovery1

/-- A rotation below an epoch that was staged ahead of it. -/
def aheadRun : List Event :=
  genesisRun ++ perform 1 1 (importRequest [epochAhead, epoch0]) ++ perform 2 2 rotationRequest

def storesEpoch (st : Store) (k : Nat) (epoch : Json) : Bool :=
  decide (st.object .epoch (toString k) = some epoch)

theorem renewedImport_lines :
    (stepsAll (World.step crypto) (fun w ev => (w.acting ev).all fun call =>
        !decide (call.route = .reseed) &&
        (!decide (call.route = .importChain) || lineages.all fun l =>
          (a call.value l.kind.history).all fun x =>
            ((w.store call.chain).object l.kind (toString (n x l.number))).isSome) &&
        (!(decide (call.route = .epochsPost) || decide (call.route = .revoke)) ||
          ((w.store call.chain).object .epoch
            (toString (n (call.value.get "epoch") "epoch" + 1))).isNone))
        (.initial cfg) renewedImport &&
      (storeAfter crypto cfg renewedImport chainId).deletion.isNone &&
      storesEpoch (storeAfter crypto cfg renewedImport chainId) 0 epoch0 &&
      storesEpoch (storeAfter crypto cfg renewedImport chainId) 1 epoch1) = true := by
  decide +kernel

end Sample

/-- The epochs of a chain that was rotated, and staged as it stands. -/
theorem stored_ancestry_linked_run :
    s Sample.epoch1 "previous_epoch_hash" = Sample.crypto.objectHash Sample.epoch0 := by
  have hfacts := Sample.renewedImport_lines
  simp only [Bool.and_eq_true, Option.isNone_iff_eq_none, Sample.storesEpoch,
    decide_eq_true_eq] at hfacts
  obtain ⟨⟨⟨hmeet, hdel⟩, hfirst⟩, hsecond⟩ := hfacts
  refine (stored_ancestry_linked Sample.crypto Sample.cfg Sample.chainId _ ?_ hdel 0 _ _).2
    hfirst hsecond
  refine stepsMeet_of_all (fun w ev hall => ⟨?_, ?_, ?_⟩) hmeet
  · intro call hcall hid hroute _ l hl x hx hnone
    rw [hcall, Option.all_some, hroute, hid] at hall
    simp only [decide_true, Bool.not_true, Bool.false_or, Bool.and_eq_true, List.all_eq_true]
      at hall
    have hsome := hall.1.2 l hl x hx
    rw [hnone] at hsome
    cases hsome
  · intro call c hcall hid hroute _ _ y hy
    rw [hcall, Option.all_some, hid] at hall
    simp only [Bool.and_eq_true, Bool.or_eq_true, Bool.not_eq_true', Bool.or_eq_false_iff,
      decide_eq_false_iff_not, Option.isNone_iff_eq_none] at hall
    obtain hnot | hnone := hall.2
    · exact absurd hroute (not_or.mpr hnot)
    · exact absurd (hnone.symm.trans hy) (by simp)
  · intro call c imported hcall _ hroute _ _
    rw [hcall, Option.all_some, hroute] at hall
    simp at hall

/-- Two neighbours that are not linked: an epoch is staged ahead of the chain,
and the rotation below it looks only at its predecessor. -/
theorem staged_ahead_unlinked : ∃ es,
    (storeAfter Sample.crypto Sample.cfg es Sample.chainId).deletion = none ∧
    ∃ g x y, (storeAfter Sample.crypto Sample.cfg es Sample.chainId).object .epoch
        (toString g) = some x ∧
      (storeAfter Sample.crypto Sample.cfg es Sample.chainId).object .epoch
        (toString (g + 1)) = some y ∧
      s y "previous_epoch_hash" ≠ Sample.crypto.objectHash x := by
  have hrun : ((storeAfter Sample.crypto Sample.cfg Sample.aheadRun
        Sample.chainId).deletion.isNone &&
      Sample.storesEpoch (storeAfter Sample.crypto Sample.cfg Sample.aheadRun Sample.chainId) 1
        Sample.epoch1 &&
      Sample.storesEpoch (storeAfter Sample.crypto Sample.cfg Sample.aheadRun Sample.chainId) 2
        Sample.epochAhead &&
      decide (s Sample.epochAhead "previous_epoch_hash" ≠
        Sample.crypto.objectHash Sample.epoch1)) = true := by
    decide +kernel
  simp only [Bool.and_eq_true, Option.isNone_iff_eq_none, Sample.storesEpoch,
    decide_eq_true_eq] at hrun
  obtain ⟨⟨⟨hdel, hfirst⟩, hsecond⟩, hne⟩ := hrun
  exact ⟨_, hdel, 1, _, _, hfirst, hsecond, hne⟩

end PallaSync
