import PallaSync.Ancestry
import PallaSync.ImportOrder
import PallaSync.Lib.Repeats
import PallaSync.Provenance

/-!
# Imports that are repeated

The devices of an import are resolved in as many passes as there are devices at
most. An import that was accepted is accepted again, and changes nothing then:
what it lists is stored, and each check sees what it saw before. The one check
that could see more is that of an object against the one before it, where that
was listed later (`imports_repeatable`).
-/

namespace PallaSync

open Atomic Machine

/-! ## The passes -/

/-- The loop over the devices of an import: how many passes it makes, and what
it comes to. -/
inductive Resolves (X : Crypto) (admin : String) :
    Nat → List Json → List (String × Json) → Work → Except ApiError (Unit × Work) → Prop where
  | done {verified w} : Resolves X admin 0 [] verified w (.ok ((), w))
  | fails {d ds verified w e} : resolvePass X admin (d :: ds) verified w = .error e →
      Resolves X admin 1 (d :: ds) verified w (.error e)
  | stuck {d ds verified w next verified' w'} :
      resolvePass X admin (d :: ds) verified w = .ok ((next, verified'), w') →
      next.length = (d :: ds).length →
      Resolves X admin 1 (d :: ds) verified w (.error (err .enrollmentCertificateInvalid))
  | again {k d ds verified w next verified' w' r} :
      resolvePass X admin (d :: ds) verified w = .ok ((next, verified'), w') →
      next.length ≠ (d :: ds).length → Resolves X admin k next verified' w' r →
      Resolves X admin (k + 1) (d :: ds) verified w r

section Passes

variable {X : Crypto} {admin : String} {ds next : List Json}
  {verified verified' : List (String × Json)} {w w' : Work}

theorem resolvePass_length (h : resolvePass X admin ds verified w = .ok ((next, verified'), w')) :
    next.length ≤ ds.length := by
  rw [resolvePass_eq] at h
  cases hpass : Passes.pass (resolveOne X admin) ds (w, verified) with
  | error e =>
      rw [hpass] at h
      cases h
  | ok r =>
      rw [hpass] at h
      obtain ⟨left, t⟩ := r
      obtain ⟨taken, -, hperm⟩ := Passes.pass_takes hpass
      have hlength := hperm.length_eq
      have hleft : left = next := congrArg (fun x => x.1.1) (Except.ok.inj h)
      rw [List.length_append, hleft] at hlength
      omega

/-- As many passes as there are devices are enough. -/
theorem resolveDevices_resolves (X : Crypto) (admin : String) {fuel : Nat} {ds : List Json}
    (verified : List (String × Json)) (w : Work) (hfuel : ds.length ≤ fuel) :
    ∃ k ≤ ds.length, Resolves X admin k ds verified w
      (resolveDevices X admin fuel ds verified w) := by
  induction fuel generalizing ds verified w with
  | zero =>
      obtain rfl := List.eq_nil_of_length_eq_zero (Nat.le_zero.mp hfuel)
      exact ⟨0, le_rfl, .done⟩
  | succ fuel ih =>
      cases ds with
      | nil => exact ⟨0, le_rfl, .done⟩
      | cons d ds =>
          rw [resolveDevices]
          cases hpass : resolvePass X admin (d :: ds) verified w with
          | error e =>
              rw [bind_of_error hpass]
              exact ⟨1, by simp, .fails hpass⟩
          | ok r =>
              obtain ⟨⟨next, verified'⟩, w'⟩ := r
              have hle := resolvePass_length hpass
              rw [bind_of_ok hpass]
              dsimp only
              by_cases hlen : next.length = (d :: ds).length
              · rw [bind_of_error (e := err .enrollmentCertificateInvalid) (by simp [failIf, hlen])]
                exact ⟨1, by simp, .stuck hpass hlen⟩
              · rw [bind_of_ok (t := w') (a := ()) (by simpa [failIf] using hlen)]
                have hless := Nat.lt_of_le_of_ne hle hlen
                have hrest : next.length ≤ fuel := by omega
                obtain ⟨k, hk, hres⟩ := ih verified' w' hrest
                exact ⟨k + 1, by omega, .again hpass hlen hres⟩

end Passes

/-! ## Checks that are repeated -/

/-- No stored row is lost or replaced. -/
def rowFrame : Frame Work where
  rel w w' := ∀ q o, w.cell.store.objects.find? q = some o →
    w'.cell.store.objects.find? q = some o
  refl _ _ _ h := h
  trans h h' q o ho := h' q o (h q o ho)

/-- Nor is a device added. -/
def laterFrame : Frame Work where
  rel w w' := rowFrame.rel w w' ∧ deviceFrame.rel w w'
  refl w := ⟨rowFrame.refl w, deviceFrame.refl w⟩
  trans h h' := ⟨rowFrame.trans h.1 h'.1, deviceFrame.trans h.2 h'.2⟩

section Repeated

variable {X : Crypto} {F : Frame Work} {base : Work} {good : Work → Prop} {admin : String}
  {v x : Json}

theorem rowFrame.object {w w' : Work} (h : rowFrame.rel w w') {kind : Kind} {id : String}
    (hx : w.cell.store.object kind id = some x) : w'.cell.store.object kind id = some x := by
  obtain ⟨o, ho, hb⟩ := object_eq_some.mp hx
  exact object_eq_some.mpr ⟨o, h _ _ ho, hb⟩

theorem putObject_rows (kind : Kind) (v : Json) : Keeps rowFrame (putObject X kind v none) := by
  intro w fresh w' h q o ho
  obtain ⟨-, rfl, -⟩ | ⟨-, hfree, -, tab, htab, rfl⟩ := putObject_ok h
  · exact ho
  · refine (htab q).trans ?_
    rw [if_neg, ho]
    rintro rfl
    cases hfree.symm.trans ho

/-- What was stored is there. -/
theorem putObject_repeats {kind : Kind} (hF : Keeps F (putObject X kind v none))
    (hrows : ∀ w w', F.rel w w' → rowFrame.rel w w') :
    Repeats F base good (do let _ ← putObject X kind v none) := fun w _ w' _ h => by
  obtain ⟨fresh, _, hput, h⟩ := bind_ok.mp h
  obtain ⟨-, rfl⟩ := pure_ok.mp h
  refine ⟨hF _ _ _ hput, fun u hu _ => ?_⟩
  obtain ⟨o, ho, hhash⟩ := putObject_filed hput
  exact bind_of_ok (putObject_there (hrows _ _ hu _ _ ho) hhash)

theorem check_repeats {α : Type} {f : Store → Chain → Except ApiError α}
    (hf : ∀ w u x, F.rel w u → f w.cell.store w.cell.chain = .ok x →
      f u.cell.store u.cell.chain = .ok x) : Repeats F base good (check f) :=
  .of_reads (fun _ _ _ h => (check_ok.mp h).2) fun s a u h hu =>
    check_ok.mpr ⟨hf s u a hu (check_ok.mp h).1, rfl⟩

theorem historicalKey_later {w u : Work} {key : String} (h : rowFrame.rel w u)
    (hkey : historicalKey w.cell.store admin v = .ok key) :
    historicalKey u.cell.store admin v = .ok key := by
  unfold historicalKey at hkey ⊢
  split
  · rename_i hadmin
    rwa [if_pos hadmin] at hkey
  · rename_i hadmin
    rw [if_neg hadmin] at hkey
    obtain ⟨d, hd, hkey⟩ := Check.bind_ok.mp hkey
    rw [Check.require_ok] at hd
    exact Check.bind_ok.mpr ⟨d, Check.require_ok.mpr (rowFrame.object h hd), hkey⟩

/-- On the line `l`, `x` names the object before it, unless that was there in `w`. -/
def NamesNew (X : Crypto) (l : Lineage) (w : Work) (x : Json) (u : Work) : Prop :=
  ∀ y, u.cell.store.object l.kind (toString (n x l.number - 1)) = some y →
    w.cell.store.object l.kind (toString (n x l.number - 1)) = none →
    n x l.number ≠ 0 → s x l.previous = X.objectHash y

theorem NamesNew.later {l : Lineage} {w w' u : Work} (h : NamesNew X l w x u)
    (hw : rowFrame.rel w w') : NamesNew X l w' x u := by
  refine fun y hy hnone hzero => h y hy ?_ hzero
  cases hold : w.cell.store.object l.kind (toString (n x l.number - 1)) with
  | none => rfl
  | some z =>
      rw [rowFrame.object hw hold] at hnone
      cases hnone

/-- The check of `x` against the object before it held, and holds later on. -/
theorem NamesNew.holds {l : Lineage} {w u : Work} (hnames : NamesNew X l w x u)
    (h : rowFrame.rel w u)
    (hheld : (n x l.number == 0 || (w.cell.store.object l.kind
      (toString (n x l.number - 1))).all (s x l.previous == X.objectHash ·)) = true) :
    (n x l.number == 0 || (u.cell.store.object l.kind
      (toString (n x l.number - 1))).all (s x l.previous == X.objectHash ·)) = true := by
  rw [Bool.or_eq_true, beq_iff_eq] at hheld ⊢
  by_cases hzero : n x l.number = 0
  · exact .inl hzero
  · refine .inr ?_
    have hheld := hheld.resolve_left hzero
    cases hold : w.cell.store.object l.kind (toString (n x l.number - 1)) with
    | some y =>
        rw [rowFrame.object h hold]
        rwa [hold] at hheld
    | none =>
        cases hy : u.cell.store.object l.kind (toString (n x l.number - 1)) with
        | none => rfl
        | some y =>
            rw [Option.all_some, beq_iff_eq]
            exact hnames y hy hold hzero

theorem stageParameters_repeats (hgood : ∀ u, good u → NamesNew X parametersLine base x u) :
    Repeats rowFrame base good (stageParameters X admin x) :=
  .bind (.failIf _ _) fun _ => .bind (.lift _) fun _ =>
  .guard (fun _ u hbase h hu hheld => ((hgood u hu).later hbase).holds h hheld)
    (putObject_repeats (putObject_rows _ _) fun _ _ h => h)

theorem putObject_later {kind : Kind} (hkind : kind ≠ .device) (v : Json) :
    Keeps laterFrame (putObject X kind v none) := fun w fresh w' h =>
  ⟨putObject_rows kind v w fresh w' h, putObject_devices hkind v none w fresh w' h⟩

theorem stageEpoch_repeats (hgood : ∀ u, good u → NamesNew X epochLine base x u) :
    Repeats laterFrame base good (stageEpoch X admin x) := by
  have hmembers : ∀ w u : Work, laterFrame.rel w u →
      membersMatch u.cell.store x = membersMatch w.cell.store x := fun w u h => by
    have hsame : ∀ id, u.cell.store.object .device id = w.cell.store.object .device id :=
      fun id => object_of_find? (h.2 id)
    simp only [membersMatch, hsame]
  exact .guard (fun _ u hbase h hu hheld =>
      ((hgood u hu).later hbase.1).holds h.1 hheld) <|
    .bind (check_repeats fun _ _ _ h hkey => historicalKey_later h.1 hkey) fun _ =>
    .bind (.lift _) fun _ =>
    .guard (fun _ _ _ h _ hheld => (hmembers _ _ h).trans hheld)
      (putObject_repeats (putObject_later (by simp) _) fun _ _ h => h.1)

theorem stageEnvelope_repeats : Repeats laterFrame base good (stageEnvelope X admin x) :=
  .bind (check_repeats fun w u _ h hx => by
    obtain ⟨epoch, hepoch, hx⟩ := Check.bind_ok.mp hx
    rw [Check.require_ok] at hepoch
    exact Check.bind_ok.mpr ⟨epoch, Check.require_ok.mpr (rowFrame.object h.1 hepoch), hx⟩) fun _ =>
  .bind (check_repeats fun _ _ _ h hkey => historicalKey_later h.1 hkey) fun _ =>
  .bind (.lift _) fun _ => putObject_repeats (putObject_later (by simp) _) fun _ _ h => h.1

theorem stageCompaction_repeats : Repeats laterFrame base good (stageCompaction X x) :=
  .found (fun _ _ _ h hd => rowFrame.object h.1 hd) fun _ => .bind (.lift _) fun _ =>
    putObject_repeats (putObject_later (by simp) _) fun _ _ h => h.1

end Repeated

/-! ## The whole import -/

section Import

variable {X : Crypto} {R : Relay} {admin : String} {v x p e : Json} {w w₁ u : Work}

theorem resolveDevices_rows {ds : List Json} {fuel : Nat} (he : w.cell.store.Embodied X)
    (hd : w.cell.store.Distinct X ds)
    (h : resolveDevices X admin fuel ds [] w = .ok ((), w₁)) : rowFrame.rel w w₁ := by
  obtain ⟨-, tab, hst, hfind⟩ := resolveDevices_stages he hd h
  intro q o ho
  rw [hst]
  exact (hfind q).trans (by rw [ho, Option.some_or])

/-- What an import lists is accepted again where each object names the one before
it that was not there when the import began. -/
theorem stageObjects_repeats (he : w.cell.store.Embodied X)
    (hd : w.cell.store.Distinct X (a v "device_history"))
    (h : stageObjects X admin v w = .ok ((), w₁))
    (hrows : ∀ q, u.cell.store.objects.find? q = w₁.cell.store.objects.find? q)
    (hnames : ∀ l ∈ lineages, ∀ x ∈ a v l.kind.history, NamesNew X l w x u) :
    stageObjects X admin v u = .ok ((), u) := by
  obtain ⟨_, w₂, hps, h⟩ := bind_ok.mp h
  obtain ⟨_, w₃, hds, hrest⟩ := bind_ok.mp h
  have hsame := stageParameters_sameDevices hps
  have he₂ := he.same hsame
  have hd₂ := hd.same hsame
  have hkept : rowFrame.rel w₂ w₃ := resolveDevices_rows he₂ hd₂ hds
  have hparameters : Repeats rowFrame w
      (fun u => ∀ x ∈ a v "parameters_history", NamesNew X parametersLine w x u)
      (each (stageParameters X admin) (a v "parameters_history")) :=
    .each fun x hx => stageParameters_repeats fun u hu => hu x hx
  have hafter : Repeats laterFrame w₃
      (fun u => ∀ x ∈ a v "epoch_history", NamesNew X epochLine w₃ x u) (do
        each (stageEpoch X admin) (a v "epoch_history")
        each (stageEnvelope X admin) (a v "envelopes")
        each (stageCompaction X) (a v "compactions")) :=
    .bind (.each fun x hx => stageEpoch_repeats fun u hu => hu x hx) fun _ =>
    .bind (.each fun _ _ => stageEnvelope_repeats) fun _ =>
    .each fun _ _ => stageCompaction_repeats
  obtain ⟨hfirst, hps'⟩ := hparameters _ _ _ (rowFrame.refl w) hps
  obtain ⟨hlast, hrest'⟩ := hafter _ _ _ (laterFrame.refl w₃) hrest
  have hend : laterFrame.rel w₁ u := ⟨fun q o ho => (hrows q).trans ho, fun id => hrows _⟩
  have hbegin : rowFrame.rel w₂ u := rowFrame.trans hkept (rowFrame.trans hlast.1 hend.1)
  have hdevices : w₃.cell.store.SameDevices u.cell.store := (laterFrame.trans hlast hend).2
  refine bind_ok.mpr ⟨(), u, hps' u hbegin (hnames parametersLine (by simp [lineages])),
    bind_ok.mpr ⟨(), u, resolveDevices_again he₂ hd₂ hds hdevices, hrest' u hend ?_⟩⟩
  exact fun x hx => (hnames epochLine (by simp [lineages]) x hx).later
    (rowFrame.trans hfirst hkept)

end Import

/-! ## What is listed and stored -/

/-- An object that an import lists, or that is stored. -/
def Store.Known (st : Store) (v : Json) (kind : Kind) (x : Json) : Prop :=
  x ∈ a v kind.history ∨ ∃ id, st.object kind id = some x

/-- Two different devices, parameters or epochs, listed or stored, have one hash. -/
def Store.Collides (X : Crypto) (st : Store) (v : Json) : Prop :=
  ∃ kind ∈ [Kind.device, .parameters, .epoch], ∃ x y, st.Known v kind x ∧ st.Known v kind y ∧
    x ≠ y ∧ X.objectHash x = X.objectHash y

/-- What the import puts on the lines is named by what a log has right above it. -/
def Store.HeedsListed (X : Crypto) (st : Store) (v : Json) : Prop :=
  ∀ l ∈ lineages, ∀ y ∈ a v l.kind.history,
    st.object l.kind (toString (n y l.number)) = none → st.HeedsInLog X l y

section Listed

variable {X : Crypto} {admin : String} {v : Json} {st : Store} {w w₁ : Work}

theorem Store.Collides.distinct (h : ¬st.Collides X v) :
    st.Distinct X (a v "device_history") := by
  intro id id' x y hx hy hhash
  have hknown : ∀ {id x}, st.Names (a v "device_history") id x → st.Known v .device x :=
    fun hx => hx.imp (fun hx => hx.1) fun hx => ⟨_, hx⟩
  by_contra hne
  exact h ⟨.device, by simp, x, y, hknown hx, hknown hy, hne, hhash⟩

/-- The body of a row that has the hash of a listed object is that object. -/
theorem staged_body {kind : Kind} {q : String} {x : Json} {o : ObjectRow} {ms : List Move}
    (hg : Guided X (Stages X v) ms w.cell.ledger w₁.cell.ledger)
    (hbodies : ∀ {q o}, w.cell.store.objects.find? (kind, q) = some o →
      ∃ b, o.body = some b ∧ o.objectHash = X.objectHash b ∧ objectId b kind = q)
    (hnot : ¬w.cell.store.Collides X v) (hkind : kind ∈ [Kind.device, .parameters, .epoch])
    (hx : x ∈ a v kind.history) (ho : w₁.cell.store.objects.find? (kind, q) = some o)
    (hhash : o.objectHash = X.objectHash x) : o.body = some x := by
  have hsame : ∀ b, w.cell.store.Known v kind b → o.objectHash = X.objectHash b → b = x :=
    fun b hb hbhash => by
      by_contra hne
      exact hnot ⟨kind, hkind, b, x, hb, .inl hx, hne, hbhash.symm.trans hhash⟩
  obtain hold | ⟨y, hy, -, rfl⟩ := hg.staged_from ho
  · obtain ⟨b, hb, hbhash, -⟩ := hbodies hold
    rw [hb, hsame b (.inr ⟨q, object_eq_some.mpr ⟨o, hold, hb⟩⟩) hbhash]
  · rw [← hsame y (.inl hy) rfl]
    rfl

/-- Each listed object names the one before it, where that is new. -/
theorem listed_names (h : stageObjects X admin v w = .ok ((), w₁))
    (hhistory : stagedHistory X w₁.cell.store = .ok ())
    (hbodies : ∀ {kind q o}, ¬Kind.removable kind →
      w.cell.store.objects.find? (kind, q) = some o →
      ∃ b, o.body = some b ∧ o.objectHash = X.objectHash b ∧ objectId b kind = q)
    (hnot : ¬w.cell.store.Collides X v) (hheeds : w.cell.store.HeedsListed X v) :
    ∀ l ∈ lineages, ∀ x ∈ a v l.kind.history, NamesNew X l w x w₁ := by
  intro l hl x hx y hy hnone hzero
  obtain ⟨ms, hg⟩ := (stageObjects_path h).guided
  obtain ⟨o, ho, hb⟩ := object_eq_some.mp hy
  obtain hold | ⟨y', hlisted, hid, rfl⟩ := hg.staged_from ho
  · rw [object_eq_some.mpr ⟨o, hold, hb⟩] at hnone
    cases hnone
  obtain rfl := Option.some.inj hb
  have hnumber : n y' l.number = n x l.number - 1 :=
    toString_inj ((Lineage.objectId hl y').symm.trans hid)
  have hnext : n x l.number = n y' l.number + 1 := by omega
  have hfiled : w₁.cell.ledger.Filed X l.kind x := by
    obtain ⟨hparameters, hepochs⟩ := stageObjects_filed h
    obtain rfl | hl := List.mem_cons.mp hl
    · exact hparameters x hx
    · obtain rfl := List.mem_singleton.mp hl
      exact hepochs x hx
  obtain ⟨r, hr, hhash⟩ := hfiled
  rw [Lineage.objectId hl, hnext] at hr
  have hkind : l.kind ∈ [Kind.device, .parameters, .epoch] := by
    obtain rfl | hl := List.mem_cons.mp hl
    · simp [parametersLine]
    · obtain rfl := List.mem_singleton.mp hl
      simp [epochLine]
  have hbody := staged_body hg (hbodies (Lineage.kept hl)) hnot hkind hx hr hhash
  cases hlog : r.logId with
  | none => exact stagedHistory_links hhistory hl hr hlog hbody hnext (hnumber ▸ hy)
  | some log =>
      have hsome : r.logId.isSome := by rw [hlog]; rfl
      exact hheeds l hl y' hlisted (hnumber ▸ hnone) r x (hg.staged_row hr hsome) hsome hbody

end Listed

/-! ## The import as a transaction -/

/-- What an import comes to once its objects are stored: the pinned log, and a
chain with the head it names. -/
structure StagedRest (R : Relay) (p e : Json) (chainId : String) (w w₁ : Work) (x : Json) :
    Prop where
  history : stagedHistory R.crypto w.cell.store = .ok ()
  objects : w₁.cell.store.objects = w.cell.store.objects
  imports : ∃ i, w₁.cell.store.imports = some i ∧
    (w.cell.store.imports = some i ∨ w.cell.store.imports = none ∧ i.parameters = p ∧ i.epoch = e) ∧
    x = .obj [("chain_id", .str chainId), ("log_id", .str i.logId), ("state", .str "staged")]
  chain : ∃ c, w₁.cell.store.chain = some c ∧
    (w.cell.store.chain = some c ∧ w₁.cell.chain = w.cell.chain ∨
      w.cell.store.chain = none ∧ w₁.cell.chain = c ∧ c.parameters = p ∧ c.epoch = e)
  quota : w₁.cell.store.quota R = .ok ()

section Transaction

variable {R : Relay} {p e v x : Json} {chainId : String} {w w₁ u : Work}

theorem stageRest_ok (h : stageRest R p e chainId w = .ok (x, w₁)) :
    StagedRest R p e chainId w w₁ x := by
  simp only [stageRest, bind_ok, check_ok, newId_ok, look_ok, setStore_ok] at h
  obtain ⟨_, _, ⟨hhistory, rfl⟩, fresh, _, ⟨-, rfl⟩, _, _, ⟨rfl, rfl⟩, _, _, rfl, _, _, ⟨rfl, rfl⟩,
    h⟩ := h
  have himports : ∃ i, w.cell.store.imports.or (some ⟨(w.cell.store.imports.map
      (·.logId)).getD fresh, p, e⟩) = some i ∧ (w.cell.store.imports = some i ∨
        w.cell.store.imports = none ∧ i.parameters = p ∧ i.epoch = e) ∧
      (w.cell.store.imports.map (·.logId)).getD fresh = i.logId := by
    cases w.cell.store.imports with
    | some i => exact ⟨i, rfl, .inl rfl, rfl⟩
    | none => exact ⟨_, rfl, .inr ⟨rfl, rfl, rfl⟩, rfl⟩
  obtain ⟨i, hi, hfrom, hid⟩ := himports
  rw [hid] at h
  dsimp only at h hi
  rw [hid] at hi
  cases hc : w.cell.store.chain with
  | some c =>
      simp only [hc, bind_ok, pure_ok, check_ok] at h
      obtain ⟨_, _, ⟨hquota, rfl⟩, rfl, rfl⟩ := h
      exact ⟨hhistory, rfl, ⟨i, hi, hfrom, rfl⟩, ⟨c, rfl, .inl ⟨hc, rfl⟩⟩, hquota⟩
  | none =>
      simp only [hc, stageChain, save, bind_ok, newId_ok, setChain_ok, chain_ok, setStore_ok,
        now_ok, require_ok, check_ok, pure_ok] at h
      obtain ⟨_, _, ⟨_, _, ⟨-, rfl⟩, _, _, ⟨-, rfl⟩, _, _, rfl, _, _, ⟨rfl, rfl⟩, _, _, rfl, _, _,
        ⟨-, rfl⟩, _, _, ⟨-, rfl⟩, _, _, rfl, -, rfl⟩, _, _, ⟨hquota, rfl⟩, rfl, rfl⟩ := h
      exact ⟨hhistory, rfl, ⟨i, hi, hfrom, rfl⟩, ⟨_, rfl, .inr ⟨hc, rfl, rfl, rfl⟩⟩, hquota⟩

theorem stagedHistory_congr {X : Crypto} {st st' : Store} (h : st'.objects = st.objects) :
    stagedHistory X st' = stagedHistory X st := by
  have hobject : ∀ kind id, st'.object kind id = st.object kind id := fun kind id => by
    rw [Store.object, Store.object, h]
  have hparameters : parametersLinked X st' = parametersLinked X st := by
    funext v
    simp only [parametersLinked, hobject]
  simp only [stagedHistory, stagedBodies, epochLinked, membersMatch, hparameters, hobject, h]

theorem StagedRest.repeats (h : StagedRest R p e chainId w w₁ x)
    (hu : u.cell.store = w₁.cell.store) :
    stageRest R p e chainId u = .ok (x, { u with tick := u.tick + 1 }) := by
  obtain ⟨i, hi, -, rfl⟩ := h.imports
  obtain ⟨c, hc, -⟩ := h.chain
  have hhistory : stagedHistory R.crypto u.cell.store = .ok () :=
    (stagedHistory_congr (by rw [hu, h.objects])).trans h.history
  have hquota := h.quota
  rw [← hu] at hi hc hquota
  have hstore : ({ u.cell.store with
      imports := u.cell.store.imports.or (some ⟨i.logId, p, e⟩) } : Store) = u.cell.store := by
    rw [hi, Option.some_or, ← hi]
  refine bind_ok.mpr ⟨(), u, check_ok.mpr ⟨hhistory, rfl⟩,
    bind_ok.mpr ⟨_, _, newId_ok.mpr ⟨rfl, rfl⟩,
    bind_ok.mpr ⟨some i, _, look_ok.mpr ⟨hi.symm, rfl⟩,
    bind_ok.mpr ⟨(), { u with tick := u.tick + 1 }, setStore_ok.mpr ?_,
    bind_ok.mpr ⟨some c, _, look_ok.mpr ⟨hc.symm, rfl⟩,
    bind_ok.mpr ⟨(), _, check_ok.mpr ⟨hquota, rfl⟩, pure_ok.mpr ⟨rfl, rfl⟩⟩⟩⟩⟩⟩⟩
  dsimp only [Option.map_some, Option.getD_some]
  rw [hstore]

/-- The head that an import named is that of the chain afterwards. -/
theorem StagedRest.head (h : StagedRest R p e chainId w w₁ x)
    (hhead : terminalHead R.crypto w.cell.store p e = .ok ()) :
    terminalHead R.crypto w₁.cell.store p e = .ok () := by
  simp only [terminalHead, Check.bind_ok, Check.failIf_ok] at hhead ⊢
  obtain ⟨_, hchain, himports⟩ := hhead
  refine ⟨(), ?_, ?_⟩
  · obtain ⟨c, hc, ⟨hold, -⟩ | ⟨-, -, rfl, rfl⟩⟩ := h.chain
    · rwa [hc, ← hold]
    · rw [hc, Option.any_some]
      simp [Chain.parametersHash, Chain.epochHash, Chain.adminPublicKey]
  · obtain ⟨i, hi, hold | ⟨-, rfl, rfl⟩, -⟩ := h.imports
    · rwa [hi, ← hold]
    · simp [hi]

/-- The staged import, and the chain row. -/
def pinFrame : Frame Work where
  rel w w' := w'.cell.store.imports = w.cell.store.imports ∧
    w'.cell.store.chain = w.cell.store.chain
  refl _ := ⟨rfl, rfl⟩
  trans h h' := ⟨h'.1.trans h.1, h'.2.trans h.2⟩

theorem pinFrame_aside : Aside pinFrame where
  still _ _ he _ := by
    have himports := congrArg Store.imports he
    have hchain := congrArg Store.chain he
    exact ⟨himports, hchain⟩

/-- An import that was accepted is accepted again, with the same answer. -/
theorem stage_repeats (h : stage R v w = .ok (x, w₁)) (hw : w.cell = w.cell.store.cell)
    (he : w.cell.store.Embodied R.crypto)
    (hbodies : ∀ {kind q o}, ¬Kind.removable kind →
      w.cell.store.objects.find? (kind, q) = some o →
      ∃ b, o.body = some b ∧ o.objectHash = R.crypto.objectHash b ∧ objectId b kind = q)
    (hnot : ¬w.cell.store.Collides R.crypto v) (hheeds : w.cell.store.HeedsListed R.crypto v)
    (hu : u.cell.store = w₁.cell.store) :
    stage R v u = .ok (x, { u with tick := u.tick + 1 }) ∧ w₁.cell = w₁.cell.store.cell := by
  obtain ⟨_, _, h₁, h⟩ := bind_ok.mp h
  obtain ⟨hfields, rfl⟩ := lift_ok.mp h₁
  obtain ⟨_, _, h₂, h⟩ := bind_ok.mp h
  obtain ⟨hempty, rfl⟩ := failIf_ok.mp h₂
  obtain ⟨_, _, h₃, h⟩ := bind_ok.mp h
  obtain ⟨hhead, rfl⟩ := check_ok.mp h₃
  obtain ⟨_, _, h₄, h⟩ := bind_ok.mp h
  obtain ⟨hobjects, rfl⟩ := lift_ok.mp h₄
  obtain ⟨_, w₂, hstaged, h⟩ := bind_ok.mp h
  have hrest := stageRest_ok h
  obtain ⟨himports, hchain⟩ := pinFrame_aside.stageObjects R.crypto _ v _ _ _ hstaged
  have hcopy := ((stageObjects_path hstaged).staged .unset).1
  have hrows : u.cell.store.objects = w₂.cell.store.objects := by rw [hu, hrest.objects]
  have hheads : terminalHead R.crypto w₂.cell.store = terminalHead R.crypto w.cell.store := by
    funext p e
    simp only [terminalHead, himports, hchain]
  have hhead' := hrest.head ((congrFun₂ hheads _ _).trans hhead)
  rw [← hu] at hhead'
  have hnames := listed_names hstaged hrest.history hbodies hnot hheeds
  have hagain : stageObjects R.crypto _ v u = .ok ((), u) :=
    stageObjects_repeats he (Store.Collides.distinct hnot) hstaged (fun q => by rw [hrows])
      fun l hl x hx y hy => hnames l hl x hx y (by rwa [Store.object, hrows] at hy)
  refine ⟨bind_ok.mpr ⟨(), _, lift_ok.mpr ⟨hfields, rfl⟩, bind_ok.mpr ⟨(), _,
    failIf_ok.mpr ⟨hempty, rfl⟩, bind_ok.mpr ⟨(), _, check_ok.mpr ⟨hhead', rfl⟩, bind_ok.mpr ⟨(), _,
      lift_ok.mpr ⟨hobjects, rfl⟩, bind_ok.mpr ⟨(), u, hagain, hrest.repeats hu⟩⟩⟩⟩⟩, ?_⟩
  have hworking : w₁.cell.chain = w₁.cell.store.chain.getD .unset := by
    obtain ⟨c, hc, ⟨hold, hkept⟩ | ⟨-, hnew, -⟩⟩ := hrest.chain
    · rw [hc, hkept, hcopy, hw, Store.cell, ← hchain, hold]
    · rw [hc, hnew, Option.getD_some]
  exact (by rw [Store.cell, ← hworking] : w₁.cell = w₁.cell.store.cell)

end Transaction

/-! ## Every import -/

/-- What an import of `call` into the store `st` comes to. Its devices are
accepted if and only if they agree with each other and with the stored ones, each
verifies, and every certificate goes back to the admin or to a stored device;
another order of them makes no difference; and it can be repeated. -/
structure Store.ImportLaw (R : Relay) (call : Call) (st : Store) : Prop where
  resolved : ∀ admin o w, each (stageParameters R.crypto admin) (a call.value "parameters_history")
      ⟨st.cell, o, 0⟩ = .ok ((), w) →
    ((∃ w', resolveDevices R.crypto admin (a call.value "device_history").length
        (a call.value "device_history") [] w = .ok ((), w')) ↔
      st.Agrees R.crypto (a call.value "device_history") ∧ ∀ d ∈ a call.value "device_history",
        st.Certifies R.crypto admin (a call.value "device_history") d ∧
          verify R.crypto d (s d "device_public_key") .deviceRecord = .ok ())
  reordered : ∀ {v o reply b}, Reordered call.value v →
    (executeTx R call).run o st = .ok (reply, b) →
    ∃ b', (executeTx R { call with value := v }).run o st = .ok (reply, b') ∧
      b'.chain = b.chain ∧ b.store.Alike b'.store
  repeated : ∀ {o reply b}, st.HeedsListed R.crypto call.value →
    (executeTx R call).run o st = .ok (reply, b) →
    ∀ o', (executeTx R call).run o' b.store = .ok (reply, b)

/-- The devices of an import are resolved in as many passes as there are devices
at most. Unless two different objects have one hash, they are accepted exactly
where their certificates go back to the admin or to a stored device; their order
makes no difference; and the import, repeated, has the same answer and changes
nothing. -/
theorem imports_repeatable (X : Crypto) (cfg : RelayConfig) (es : List Event) (id : String)
    (hdel : (storeAfter X cfg es id).deletion = none) {call : Call}
    (hroute : call.route = .importChain) :
    (∀ admin ds verified w, ∃ k ≤ ds.length, Resolves X admin k ds verified w
      (resolveDevices X admin ds.length ds verified w)) ∧
    ((storeAfter X cfg es id).Collides X call.value ∨
      (storeAfter X cfg es id).ImportLaw ((World.after X cfg es).relay X) call) := by
  refine ⟨fun admin ds verified w => resolveDevices_resolves X admin verified w le_rfl,
    or_iff_not_imp_left.mpr fun hnot => ?_⟩
  have he := store_embodied X cfg es id hdel
  have hdistinct := Store.Collides.distinct hnot
  refine ⟨fun admin o w hps => ?_, fun hre h => executeTx_reordered hroute hre he hdistinct h,
    fun hheeds h o' => ?_⟩
  · have hsame : (storeAfter X cfg es id).SameDevices w.cell.store :=
      stageParameters_sameDevices hps
    refine (resolveDevices_iff admin (he.same hsame) (hdistinct.same hsame)).trans ?_
    rw [Store.Agrees.same hsame]
    simp only [Store.Certifies.same hsame]
    rfl
  · obtain ⟨hadmin, hquery, x, w, hstage, hreply, rfl⟩ := (import_run_ok hroute).mp h
    obtain ⟨hagain, hcell⟩ := stage_repeats (u := ⟨w.cell.store.cell, o', 0⟩) hstage rfl he
      (fun hkind ho => store_body X cfg es id hdel hkind ho) hnot hheeds rfl
    exact (import_run_ok hroute).mpr ⟨hadmin, hquery, x, _, hagain, hreply, hcell⟩

theorem not_collides {X : Crypto} {st : Store} {v : Json}
    (h : ∀ kind ∈ [Kind.device, .parameters, .epoch],
      ∀ x ∈ a v kind.history ++ st.bodies kind, ∀ y ∈ a v kind.history ++ st.bodies kind,
        X.objectHash x = X.objectHash y → x = y) : ¬st.Collides X v := by
  have hmem : ∀ {kind x}, st.Known v kind x → x ∈ a v kind.history ++ st.bodies kind := fun hx =>
    List.mem_append.mpr (hx.imp_right fun hx => Store.mem_bodies hx.choose_spec)
  rintro ⟨kind, hkind, x, y, hx, hy, hne, hhash⟩
  exact hne (h kind hkind x (hmem hx) y (hmem hy) hhash)

namespace Sample

/-- The store into which devices are imported. -/
def genesisStore : Store := storeAfter crypto cfg genesisRun chainId

/-- The second device, with two descriptions. -/
def twinDevices : List Json :=
  [device 2 0 0, (device 2 0 0).set "encrypted_device_meta" (.str "f1")]

def importTwins : Except ApiError (Reply × Cell) :=
  (executeTx ((World.after crypto cfg genesisRun).relay crypto) (devicesCall twinDevices)).run
    (oracle 1500 7) genesisStore

def twinsRefused : Bool :=
  match importTwins with
  | .error e => decide (e = err .deviceIdConflict)
  | .ok _ => false

theorem importTwins_refused : importTwins = .error (err .deviceIdConflict) := by
  have hrefused : twinsRefused = true := by decide +kernel
  unfold twinsRefused at hrefused
  cases h : importTwins with
  | error e =>
      rw [h] at hrefused
      exact congrArg _ (of_decide_eq_true hrefused)
  | ok x =>
      rw [h] at hrefused
      cases hrefused

theorem genesisStore_facts :
    (genesisStore.deletion.isNone &&
      decide (∀ kind ∈ [Kind.device, .parameters, .epoch],
        ∀ x ∈ a (devicesBody vouchedDevices) kind.history ++ genesisStore.bodies kind,
        ∀ y ∈ a (devicesBody vouchedDevices) kind.history ++ genesisStore.bodies kind,
          crypto.objectHash x = crypto.objectHash y → x = y) &&
      lineages.all (fun l => (a (devicesBody vouchedDevices) l.kind.history).all fun y =>
        (genesisStore.object l.kind (toString (n y l.number))).isSome) &&
      ((executeTx ((World.after crypto cfg genesisRun).relay crypto)
        (devicesCall vouchedDevices)).run (oracle 1500 7) genesisStore).toBool) = true := by
  decide +kernel

end Sample

/-- An import of two devices, one of which signed the other's certificate, is made
again a second later. -/
theorem imports_repeatable_vouched : ∃ (reply : Reply) (b : Cell),
    (executeTx ((World.after Sample.crypto Sample.cfg Sample.genesisRun).relay Sample.crypto)
        (Sample.devicesCall Sample.vouchedDevices)).run (Sample.oracle 1500 7)
      (storeAfter Sample.crypto Sample.cfg Sample.genesisRun Sample.chainId) = .ok (reply, b) ∧
    (executeTx ((World.after Sample.crypto Sample.cfg Sample.genesisRun).relay Sample.crypto)
        (Sample.devicesCall Sample.vouchedDevices)).run (Sample.oracle 2500 9) b.store =
      .ok (reply, b) := by
  have hfacts := Sample.genesisStore_facts
  simp only [Bool.and_eq_true, Option.isNone_iff_eq_none, decide_eq_true_eq, List.all_eq_true]
    at hfacts
  obtain ⟨⟨⟨hdel, hnot⟩, hsome⟩, hrun⟩ := hfacts
  obtain ⟨⟨reply, b⟩, h⟩ : ∃ x, (executeTx ((World.after Sample.crypto Sample.cfg
      Sample.genesisRun).relay Sample.crypto) (Sample.devicesCall Sample.vouchedDevices)).run
      (Sample.oracle 1500 7) Sample.genesisStore = .ok x := by
    cases hx : (executeTx ((World.after Sample.crypto Sample.cfg Sample.genesisRun).relay
        Sample.crypto) (Sample.devicesCall Sample.vouchedDevices)).run (Sample.oracle 1500 7)
        Sample.genesisStore with
    | error e =>
        rw [hx] at hrun
        cases hrun
    | ok x => exact ⟨x, rfl⟩
  have hlaw := (imports_repeatable Sample.crypto Sample.cfg Sample.genesisRun Sample.chainId hdel
    (rfl : (Sample.devicesCall Sample.vouchedDevices).route = .importChain)).2.resolve_left
    (not_collides hnot)
  refine ⟨reply, b, h, hlaw.repeated (fun l hl y hy hnone => ?_) h _⟩
  have hy := hsome l hl y hy
  rw [Sample.genesisStore, hnone] at hy
  cases hy

/-- Two records of one device, each of them certified by the admin: the import is
refused. -/
theorem twin_devices_refused :
    (∀ d ∈ a (Sample.devicesCall Sample.twinDevices).value "device_history",
      (storeAfter Sample.crypto Sample.cfg Sample.genesisRun Sample.chainId).Certifies Sample.crypto
        Sample.adminKey (a (Sample.devicesCall Sample.twinDevices).value "device_history") d) ∧
    (executeTx ((World.after Sample.crypto Sample.cfg Sample.genesisRun).relay Sample.crypto)
        (Sample.devicesCall Sample.twinDevices)).run (Sample.oracle 1500 7)
      (storeAfter Sample.crypto Sample.cfg Sample.genesisRun Sample.chainId) =
        .error (err .deviceIdConflict) := by
  refine ⟨fun d hd => ?_, ?_⟩
  · have hall : ∀ d ∈ Sample.twinDevices, AdminSigned d ∧
        verify Sample.crypto (d.get "enrollment") Sample.adminKey .enrollment = .ok () := by
      decide +kernel
    obtain ⟨hadmin, hverify⟩ := hall d hd
    exact .admin hadmin hverify
  · exact Sample.importTwins_refused

end PallaSync
