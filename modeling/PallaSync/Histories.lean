import PallaSync.Deeds

/-!
# Imports and re-seeds as moves

The two requests that replay a history. How many moves they make depends on
what is stored, so they are described by guarded paths: every staging move of
an import stores an object of the request, every adoption of a re-seed logs an
object that is stored.
-/

namespace PallaSync

open Atomic

/-! ## Guarded paths -/

/-- Moves from `a` to `b`, each allowed by `Q` where it starts. -/
structure Path (X : Crypto) (Q : Move → Ledger → Prop) (a b : Cell) : Prop where
  guided : ∃ ms, Guided X Q ms a.ledger b.ledger
  unsaved : Unsaved a b

namespace Path

variable {X : Crypto} {Q : Move → Ledger → Prop} {a b d : Cell}

theorem refl (a : Cell) : Path X Q a a := ⟨⟨[], .nil⟩, rfl, rfl⟩

theorem trans (h : Path X Q a b) (h' : Path X Q b d) : Path X Q a d := by
  obtain ⟨⟨ms, hg⟩, hu⟩ := h
  obtain ⟨⟨ms', hg'⟩, hu'⟩ := h'
  exact ⟨⟨ms ++ ms', hg.append hg'⟩, hu'.chain.trans hu.chain, hu'.deletion.trans hu.deletion⟩

theorem of_moves {m : Move} (hq : Q m a.ledger) (h : Moves X [m] a b) : Path X Q a b := by
  refine ⟨⟨[m], ?_⟩, h.chain, h.deletion⟩
  obtain _ | ⟨hm, hn⟩ := h.steps
  obtain _ | _ := hn
  exact .single hq hm

end Path

section Loops

variable {X : Crypto} {Q : Move → Ledger → Prop} {α β : Type} {w w' : Work} {xs : List α}

theorem each_path {f : α → Tx Unit}
    (hf : ∀ x ∈ xs, ∀ w w', f x w = .ok ((), w') → Path X Q w.cell w'.cell)
    (h : each f xs w = .ok ((), w')) : Path X Q w.cell w'.cell := by
  induction xs generalizing w with
  | nil =>
      rw [each_nil_ok] at h
      exact h ▸ .refl _
  | cons x xs ih =>
      obtain ⟨w₁, hx, hxs⟩ := each_cons_ok.mp h
      exact (hf x List.mem_cons_self w w₁ hx).trans
        (ih (fun y hy => hf y (List.mem_cons_of_mem _ hy)) hxs)

theorem collect_path {f : α → Tx β}
    (hf : ∀ x ∈ xs, ∀ w w' b, f x w = .ok (b, w') → Path X Q w.cell w'.cell) {bs : List β}
    (h : collect f xs w = .ok (bs, w')) : Path X Q w.cell w'.cell := by
  induction xs generalizing w bs with
  | nil =>
      obtain ⟨-, rfl⟩ := collect_nil_ok.mp h
      exact .refl _
  | cons x xs ih =>
      obtain ⟨b, w₁, bs', hx, hxs, -⟩ := collect_cons_ok.mp h
      exact (hf x List.mem_cons_self w w₁ b hx).trans
        (ih (fun y hy => hf y (List.mem_cons_of_mem _ hy)) hxs)

end Loops

/-! ## Staging -/

/-- The member of an import that lists the objects of a kind. -/
def Kind.history : Kind → String
  | .parameters => "parameters_history"
  | .epoch => "epoch_history"
  | .device => "device_history"
  | .envelope => "envelopes"
  | .compaction => "compactions"
  | _ => ""

/-- A staging move of the request `v`; an envelope belongs to a stored epoch. -/
def Stages (X : Crypto) (v : Json) : Move → Ledger → Prop
  | .stage kind obj, L => obj ∈ a v kind.history ∧
      (kind = .envelope → ∃ st : Store, st.objects = L.objects ∧
        importedEnvelope X st obj = .ok ())
  | _, _ => False

section Staging

variable {X : Crypto} {v : Json} {w w' : Work}

theorem stage_path (kind : Kind) {obj : Json} {fresh : Bool}
    (hk : kind.staged = true) (hmem : obj ∈ a v kind.history)
    (henv : kind = .envelope → importedEnvelope X w.cell.store obj = .ok ())
    (h : putObject X kind obj none w = .ok (fresh, w')) : Path X (Stages X v) w.cell w'.cell :=
  .of_moves (m := .stage kind obj) ⟨hmem, fun he => ⟨_, rfl, henv he⟩⟩ (putObject_moves hk h)

theorem stageParameters_path {admin : String} {p : Json} (hmem : p ∈ a v "parameters_history")
    (h : stageParameters X admin p w = .ok ((), w')) : Path X (Stages X v) w.cell w'.cell := by
  simp only [stageParameters, bind_ok, failIf_ok, lift_ok, look_ok, pure_ok] at h
  obtain ⟨_, _, ⟨-, rfl⟩, _, _, ⟨-, rfl⟩, _, _, ⟨-, rfl⟩, _, _, ⟨-, rfl⟩, _, _, hput, -, rfl⟩ := h
  exact stage_path .parameters rfl hmem (by simp) hput

theorem stageDevice_path {key : String} {d : Json} (hmem : d ∈ a v "device_history")
    (h : stageDevice X key d w = .ok ((), w')) : Path X (Stages X v) w.cell w'.cell := by
  simp only [stageDevice, bind_ok, lift_ok, pure_ok] at h
  obtain ⟨_, _, ⟨-, rfl⟩, _, _, ⟨-, rfl⟩, _, _, hput, -, rfl⟩ := h
  exact stage_path .device rfl hmem (by simp) hput

theorem resolvePass_path {admin : String} {ds : List Json} {verified : List (String × Json)}
    {r : List Json × List (String × Json)} (hmem : ∀ d ∈ ds, d ∈ a v "device_history")
    (h : resolvePass X admin ds verified w = .ok (r, w')) :
    Path X (Stages X v) w.cell w'.cell ∧ ∀ d ∈ r.1, d ∈ a v "device_history" := by
  induction ds generalizing w verified r with
  | nil =>
      obtain ⟨rfl, rfl⟩ := pure_ok.mp h
      exact ⟨.refl _, by simp⟩
  | cons d ds ih =>
      have hds : ∀ d ∈ ds, d ∈ a v "device_history" := fun x hx =>
        hmem x (List.mem_cons_of_mem _ hx)
      simp only [resolvePass, bind_ok, check_ok] at h
      obtain ⟨k, _, ⟨-, rfl⟩, h⟩ := h
      cases k with
      | some k =>
          obtain ⟨_, w₁, hd, h⟩ := bind_ok.mp h
          have hpath := stageDevice_path (hmem d List.mem_cons_self) hd
          exact ⟨hpath.trans (ih hds h).1, (ih hds h).2⟩
      | none =>
          obtain ⟨r₁, w₁, hd, h⟩ := bind_ok.mp h
          obtain ⟨rfl, rfl⟩ := pure_ok.mp h
          obtain ⟨hpath, hsub⟩ := ih hds hd
          exact ⟨hpath, List.forall_mem_cons.mpr ⟨hmem d List.mem_cons_self, hsub⟩⟩

theorem resolveDevices_path {admin : String} {fuel : Nat} {ds : List Json}
    {verified : List (String × Json)} (hmem : ∀ d ∈ ds, d ∈ a v "device_history")
    (h : resolveDevices X admin fuel ds verified w = .ok ((), w')) :
    Path X (Stages X v) w.cell w'.cell := by
  induction fuel generalizing w ds verified with
  | zero =>
      cases ds with
      | nil =>
          obtain ⟨-, rfl⟩ := pure_ok.mp h
          exact .refl _
      | cons d ds => exact (throw_ok.mp h).elim
  | succ fuel ih =>
      cases ds with
      | nil =>
          obtain ⟨-, rfl⟩ := pure_ok.mp h
          exact .refl _
      | cons d ds =>
          simp only [resolveDevices, bind_ok, failIf_ok] at h
          obtain ⟨r, w₁, hpass, _, _, ⟨-, rfl⟩, h⟩ := h
          obtain ⟨hpath, hsub⟩ := resolvePass_path hmem hpass
          exact hpath.trans (ih hsub h)

theorem stageEpoch_path {admin : String} {epoch : Json} (hmem : epoch ∈ a v "epoch_history")
    (h : stageEpoch X admin epoch w = .ok ((), w')) : Path X (Stages X v) w.cell w'.cell := by
  simp only [stageEpoch, bind_ok, failIf_ok, lift_ok, look_ok, check_ok, pure_ok] at h
  obtain ⟨_, _, ⟨-, rfl⟩, _, _, ⟨-, rfl⟩, _, _, ⟨-, rfl⟩, _, _, ⟨-, rfl⟩, _, _, ⟨-, rfl⟩, _, _,
    ⟨-, rfl⟩, _, _, hput, -, rfl⟩ := h
  exact stage_path .epoch rfl hmem (by simp) hput

theorem stageEnvelope_path {admin : String} {env : Json} (hmem : env ∈ a v "envelopes")
    (h : stageEnvelope X admin env w = .ok ((), w')) : Path X (Stages X v) w.cell w'.cell := by
  simp only [stageEnvelope, bind_ok, lift_ok, check_ok, pure_ok] at h
  obtain ⟨_, _, ⟨hcheck, rfl⟩, _, _, ⟨-, rfl⟩, _, _, ⟨-, rfl⟩, _, _, hput, -, rfl⟩ := h
  exact stage_path .envelope rfl hmem (fun _ => hcheck) hput

theorem stageCompaction_path {comp : Json} (hmem : comp ∈ a v "compactions")
    (h : stageCompaction X comp w = .ok ((), w')) : Path X (Stages X v) w.cell w'.cell := by
  simp only [stageCompaction, bind_ok, lift_ok, look_ok, require_ok, pure_ok] at h
  obtain ⟨_, _, ⟨-, rfl⟩, _, _, ⟨-, rfl⟩, _, _, ⟨-, rfl⟩, _, _, hput, -, rfl⟩ := h
  exact stage_path .compaction rfl hmem (by simp) hput

theorem stageObjects_path {admin : String} (h : stageObjects X admin v w = .ok ((), w')) :
    Path X (Stages X v) w.cell w'.cell := by
  simp only [stageObjects, bind_ok] at h
  obtain ⟨_, w₁, h₁, _, w₂, h₂, _, w₃, h₃, _, w₄, h₄, h₅⟩ := h
  have p₁ := each_path (fun _ hx _ _ => stageParameters_path hx) h₁
  have p₂ := resolveDevices_path (fun _ hd => hd) h₂
  have p₃ := each_path (fun _ hx _ _ => stageEpoch_path hx) h₃
  have p₄ := each_path (fun _ hx _ _ => stageEnvelope_path hx) h₄
  have p₅ := each_path (fun _ hx _ _ => stageCompaction_path hx) h₅
  exact p₁.trans (p₂.trans (p₃.trans (p₄.trans p₅)))

end Staging

/-- The terminal parameters and epoch of an import. -/
def terminalParameters (v : Json) : Json := (a v "parameters_history").getLastD .null

def terminalEpoch (v : Json) : Json := (a v "epoch_history").getLastD .null

/-- A staged chain that the relay had not heard of: `b` is stored with a new
row, not writable. -/
structure StagedOnly (X : Crypto) (v : Json) (mid b : Cell) : Prop where
  chain : ∃ logId tid notice, b.chain =
    { Chain.new X (terminalParameters v) (terminalEpoch v) logId tid notice with
      writable := false }
  stored : b.store.chain = some b.chain
  ledger : b.ledger = mid.store.ledger b.chain
  deletion : b.store.deletion = mid.store.deletion

/-- An import: the staging moves, and the row of a chain that had none. -/
structure Imported (R : Relay) (v : Json) (a mid b : Cell) : Prop where
  head : terminalHead R.crypto a.store (terminalParameters v) (terminalEpoch v) = .ok ()
  objects : importObjects R.crypto (s (terminalParameters v) "chain_id") v = .ok ()
  listed : PallaSync.a v "parameters_history" ≠ [] ∧ PallaSync.a v "epoch_history" ≠ []
  staging : ∃ w w', w.cell = a ∧ w'.cell = mid ∧
    stageObjects R.crypto (s (terminalParameters v) "admin_public_key") v w = .ok ((), w')
  history : stagedHistory R.crypto mid.store = .ok ()
  path : Path R.crypto (Stages R.crypto v) a mid
  row : a.store.chain.isSome ∧ Still mid b ∨
    a.store.chain = none ∧ StagedOnly R.crypto v mid b

theorem stage_ok {R : Relay} {v : Json} {w w' : Work} {r : Json}
    (h : stage R v w = .ok (r, w')) : ∃ mid, Imported R v w.cell mid w'.cell := by
  simp only [stage, bind_ok, lift_ok, failIf_ok, check_ok, newId_ok, look_ok, setStore_ok] at h
  obtain ⟨_, _, ⟨-, rfl⟩, _, _, ⟨hlists, rfl⟩, _, _, ⟨hhead, rfl⟩, _, _, ⟨hobj, rfl⟩, _, w₁,
    hstage, _, _, ⟨hhistory, rfl⟩, _, _, ⟨-, rfl⟩, _, _, ⟨rfl, rfl⟩, _, _, rfl, _, _, ⟨rfl, rfl⟩,
    h⟩ := h
  have hpath := stageObjects_path hstage
  refine ⟨w₁.cell, hhead, hobj, by simpa using hlists, ⟨_, _, rfl, rfl, hstage⟩, hhistory, hpath,
    ?_⟩
  cases hc : w₁.cell.store.chain with
  | some c =>
      simp only [hc, bind_ok, pure_ok, check_ok] at h
      obtain ⟨_, _, ⟨-, rfl⟩, _, _, ⟨-, rfl⟩, -, rfl⟩ := h
      exact .inl ⟨by rw [← hpath.unsaved.chain, hc]; rfl, rfl, hc.symm, rfl⟩
  | none =>
      simp only [hc, stageChain, bind_ok, newId_ok, setChain_ok, check_ok, pure_ok] at h
      obtain ⟨_, w₂, ⟨tid, _, ⟨-, rfl⟩, notice, _, ⟨-, rfl⟩, _, _, rfl, hsave⟩, _, _, ⟨-, rfl⟩, -,
        rfl⟩ := h
      have hs := save_ok hsave
      refine .inr ⟨by rw [← hpath.unsaved.chain, hc], ⟨_, tid, notice, hs.chain⟩, hs.stored, ?_,
        hs.deletion⟩
      rw [hs.ledger, hs.chain]
      rfl

/-! ## Re-seeding -/

/-- An adoption logs an object that is stored; a device joins the registry,
revoked or active. -/
def Adopts : Move → Ledger → Prop
  | .log kind obj, L => kind.logged = true ∧
      ∃ id o, L.objects.find? (kind, id) = some o ∧ o.body = some obj
  | .enlist status d, L => status ≠ .pendingKeys ∧
      ∃ id o, L.objects.find? (.device, id) = some o ∧ o.body = some d
  | _, _ => False

theorem object_eq_some {st : Store} {kind : Kind} {id : String} {v : Json} :
    st.object kind id = some v ↔ ∃ o, st.objects.find? (kind, id) = some o ∧ o.body = some v := by
  simp [Store.object, Option.bind_eq_some_iff]

theorem adoptStaged_path {X : Crypto} {oldGeneration : Nat} {kind : Kind} {id : String}
    {w w' : Work} {r : Receipt} (hk : kind ∈ adoptedKinds)
    (h : adoptStaged X oldGeneration kind id w = .ok (r, w')) :
    Path X Adopts w.cell w'.cell := by
  simp only [adoptStaged, bind_ok, look_ok, require_ok] at h
  obtain ⟨_, _, ⟨rfl, rfl⟩, obj, _, ⟨hobj, rfl⟩, h⟩ := h
  obtain ⟨o, ho, hb⟩ := object_eq_some.mp hobj
  rcases ite_ok.mp h with ⟨hdev, h⟩ | ⟨hne, h⟩
  · simp only [bind_ok, look_ok] at h
    obtain ⟨_, _, ⟨rfl, rfl⟩, h⟩ := h
    refine .of_moves (m := .enlist _ obj) ⟨?_, id, o, hdev ▸ ho, hb⟩ (enlist_moves h)
    split <;> simp
  · simp only [bind_ok, pure_ok] at h
    obtain ⟨_, _, happ, -, rfl⟩ := h
    have hlogged : kind.logged = true := by
      revert hk hne
      cases kind <;> decide
    exact .of_moves (m := .log kind obj) ⟨hlogged, id, o, ho, hb⟩ (append_moves hlogged happ)

theorem adoptKind_path {X : Crypto} {oldGeneration : Nat} {kind : Kind} {w w' : Work}
    {rs : List Receipt} (hk : kind ∈ adoptedKinds)
    (h : adoptKind X oldGeneration kind w = .ok (rs, w')) : Path X Adopts w.cell w'.cell := by
  simp only [adoptKind, bind_ok, look_ok] at h
  obtain ⟨_, _, ⟨-, rfl⟩, h⟩ := h
  exact collect_path (fun _ _ _ _ _ => adoptStaged_path hk) h

theorem adoptKinds_path {X : Crypto} {oldGeneration : Nat} {kinds : List Kind} {w w' : Work}
    {rs : List (List Receipt)} (hk : kinds ⊆ adoptedKinds)
    (h : collect (adoptKind X oldGeneration) kinds w = .ok (rs, w')) :
    Path X Adopts w.cell w'.cell :=
  collect_path (fun _ hmem _ _ _ => adoptKind_path (hk hmem)) h

def reseedCommit (v : Json) : EpochCommit where
  epoch := v.get "epoch"
  envelopes := a v "envelopes"
  staged := a v "device_records"
  admin := some (v.get "admin_operation")
  genesis := false

/-- A re-seed that was not made before: from the row `c` of the new log, over
the adoptions that end in `mid`. -/
structure Reseeded (R : Relay) (v : Json) (imported : Import) (c : Chain) (a mid b : Cell) :
    Prop where
  checked : reseedCheck R a.store a.chain v = .ok imported
  chain : ∃ notice, c = a.chain.reseeded R.crypto (v.get "parameters") imported.logId notice
  devices : ∀ d ∈ PallaSync.a v "device_records", stagedDeviceCheck R.crypto a.store c d = .ok ()
  adopted : Path R.crypto Adopts ⟨a.store, c⟩ mid
  adoption : ∃ rs w w', w.cell = ⟨a.store, c⟩ ∧ w'.cell = mid ∧
    collect (adoptKind R.crypto a.chain.generation) adoptedKinds w = .ok (rs, w')
  epochChecked : reseedEpochCheck R.crypto mid.store mid.chain v = .ok ()
  moves : ∃ M₀ M M' entry r, ∃ done : Cell,
    Steps R.crypto [.log .parameters (v.get "parameters")] mid.ledger M₀ ∧
    Committed R.crypto (reseedCommit v) M₀ M M' done.ledger entry r ∧
    reseedCompactionCheck R.crypto done.store done.chain v = .ok () ∧
    Steps R.crypto [.log .compaction (v.get "compaction")] done.ledger b.ledger
  unsaved : Unsaved a b

theorem reseed_ok {R : Relay} {auth : Auth} {v : Json} {w w' : Work} {r : Json}
    (h : reseed R auth v w = .ok (r, w')) :
    auth.requireAdmin = .ok () ∧ (w'.cell = w.cell ∨
      ∃ imported c mid, Reseeded R v imported c w.cell mid w'.cell) := by
  simp only [reseed, bind_ok, lift_ok, check_ok] at h
  obtain ⟨_, _, ⟨hadmin, rfl⟩, _, _, ⟨-, rfl⟩, _, _, ⟨-, rfl⟩, before, _, ⟨-, rfl⟩, h⟩ := h
  refine ⟨hadmin, ?_⟩
  cases before with
  | some response =>
      obtain ⟨-, rfl⟩ := pure_ok.mp h
      exact .inl rfl
  | none =>
      simp only [reincarnate, bind_ok, chain_ok, check_ok, newId_ok, setChain_ok, setStore_ok,
        pure_ok, Check.each_ok] at h
      obtain ⟨_, _, ⟨rfl, rfl⟩, imported, _, ⟨hcheck, rfl⟩, _, _,
        ⟨_, _, ⟨-, rfl⟩, notice, _, ⟨-, rfl⟩, rfl⟩, _, _, ⟨hdev, rfl⟩, adopted, w₁, hadopt, _, _,
        ⟨hepoch, rfl⟩, r₁, w₂, happ, ⟨entry, rs⟩, w₃, hcommit, _, _, ⟨hcheck', rfl⟩, r₂, w₄,
        hcomp, _, _, ⟨rfl, rfl⟩, _, w₅, hout, _, _, rfl, -, rfl⟩ := h
      have hpath := adoptKinds_path (fun _ hk => hk) hadopt
      have m₁ : Moves R.crypto [.log .parameters (v.get "parameters")] w₁.cell w₂.cell :=
        append_moves rfl happ
      obtain ⟨⟨M, M', rr, hc⟩, hrow, hdel⟩ := commitEpoch_ok hcommit
      have m₃ : Moves R.crypto [.log .compaction (v.get "compaction")] w₃.cell w₄.cell :=
        append_moves rfl hcomp
      have ho := outcome_still hout
      refine .inr ⟨imported, _, w₁.cell, hcheck, ⟨notice, rfl⟩, hdev, hpath,
        ⟨_, _, _, rfl, rfl, hadopt⟩, hepoch, ⟨_, M, M', entry, rr, _, m₁.steps, hc, hcheck', ?_⟩,
        ?_, ?_⟩
      · have hl : w₅.cell.ledger = w₄.cell.ledger := ho.ledger
        exact hl ▸ m₃.steps
      · exact ho.chain.trans (m₃.chain.trans (hrow.trans (m₁.chain.trans hpath.unsaved.chain)))
      · exact ho.deletion.trans
          (m₃.deletion.trans (hdel.trans (m₁.deletion.trans hpath.unsaved.deletion)))

end PallaSync
