import PallaSync.Holdings

/-!
# The roster

Every device record the relay holds is one of a registered device, as soon as
the staged ones are adopted. So a re-seed enlists only devices that are new to
the relay, and keeps their records as the request has them.
-/

namespace PallaSync

open Atomic

/-- Every device whose record is held is in the registry. -/
def Ledger.Rostered (L : Ledger) : Prop :=
  ∀ d, L.Has .device d → (L.registry.find? (s d "device_id")).isSome

section Rows

variable {X : Crypto} {L L' : Ledger} {k : Kind} {x : Json} {id : String}

/-- What is held has a row of its own, with its digest. -/
theorem Sound.has_row (hs : Sound X L) (h : L.Has k x) :
    ∃ o, L.objects.find? (k, objectId x k) = some o ∧ o.objectHash = X.objectHash x := by
  obtain ⟨id, o, ho, hbody⟩ | ⟨⟨l, i⟩, row, e, hrow, he, hkind, hobj⟩ := h
  · have hkey : o.key = (k, id) := Table.key_of_find? ho
    obtain ⟨hk, hid⟩ := Prod.mk.inj hkey
    obtain ⟨hhash, hobjid⟩ := (hs.object_of_find? ho).body x hbody
    rw [hk, hid] at hobjid
    exact ⟨o, hobjid ▸ ho, hhash.symm⟩
  · obtain ⟨rr, hrr, hl, hi⟩ := hs.logged l i row hrow
    have hok := hs.receipts rr hrr
    obtain ⟨row', hrow', -, hentry, -⟩ := (hok.position i hi).row
    rw [hl, hrow] at hrow'
    obtain rfl := Option.some.inj hrow'
    have hagree := hentry e he
    obtain ⟨o, ho, hhash, -⟩ := hok.object
    have hkr : rr.kind = k := hagree.kind.symm.trans hkind
    have hid := hagree.objectId
    rw [hkr, hobj] at hid
    refine ⟨o, ?_, ?_⟩
    · rw [hid, ← hkr]
      exact ho
    · rw [hhash, ← hagree.objectHash, hobj]

/-- A device record is never removed. -/
theorem Sound.device_body (hs : Sound X L) {o : ObjectRow}
    (ho : L.objects.find? (.device, id) = some o) :
    ∃ d, o.body = some d ∧ s d "device_id" = id := by
  have hkey : o.key = (.device, id) := Table.key_of_find? ho
  obtain ⟨hk, hid⟩ := Prod.mk.inj hkey
  have hok := hs.object_of_find? ho
  cases hbody : o.body with
  | none =>
      obtain h | h := hok.removed hbody <;> rw [hk] at h <;> cases h
  | some d =>
      obtain ⟨-, hobjid⟩ := hok.body d hbody
      rw [hk, hid] at hobjid
      exact ⟨d, rfl, hobjid⟩

/-- Only records and envelopes lose their bodies. -/
theorem Grows.body (h : Grows L L') {k : Kind} (hk : ¬k.removable) {o : ObjectRow} {d : Json}
    (ho : L.objects.find? (k, id) = some o) (hb : o.body = some d) :
    ∃ o', L'.objects.find? (k, id) = some o' ∧ o'.body = some d := by
  obtain ⟨o', ho', hl⟩ := h.objects _ o ho
  refine ⟨o', ho', ?_⟩
  obtain hsame | ⟨-, hremoved⟩ := hl.body
  · exact hsame.trans hb
  · have hkind : o.kind = k := congrArg Prod.fst (Table.key_of_find? ho : o.key = _)
    exact absurd (hkind ▸ hremoved) hk

theorem Logged.registry {kind : Kind} {v : Json} {entry : Option LogEntry} {r : Receipt}
    (h : Logged X kind v entry r L L') : L'.registry = L.registry := by
  cases h with
  | again _ => rfl
  | fresh h => exact h.registry

/-- No device leaves the registry. -/
theorem Step.registered {m : Move} (h : Step X m L L') (hr : (L.registry.find? id).isSome) :
    (L'.registry.find? id).isSome := by
  cases h with
  | log _ hl => rwa [hl.registry]
  | enlist hl hd =>
      rw [hd.find?]
      split
      · rfl
      · rwa [hl.registry]
  | partAgain | setEpoch | found _ _ | reincarnate _ _ => exact hr
  | part hp => rwa [hp.registry]
  | evidence hw => rwa [hw.registry]
  | stage _ hs => rwa [hs.rest]
  | revoke hw | activate hw => rwa [hw.find?, Option.isSome_map]
  | prune hb _ _ _ _ => rwa [hb.registry]
  | handoff _ he => rwa [he]
  | expire _ hb _ _ => rwa [hb.registry]

theorem Steps.registered {ms : List Move} (h : Steps X ms L L')
    (hr : (L.registry.find? id).isSome) : (L'.registry.find? id).isSome := by
  induction h with
  | nil => exact hr
  | cons hm _ ih => exact ih (hm.registered hr)

theorem Path.steps {Q : Move → Ledger → Prop} {a b : Cell} (h : Path X Q a b) :
    ∃ ms, Steps X ms a.ledger b.ledger :=
  have ⟨ms, hg⟩ := h.guided
  ⟨ms, (hg.steps_of (C := fun _ => True) fun _ _ _ => trivial).1⟩

/-- Only staging brings a device that is not registered. -/
theorem Step.rostered {m : Move} (h : Step X m L L') (hm : ∀ k v, m ≠ .stage k v)
    (hL : L.Rostered) : L'.Rostered := by
  intro d hd
  obtain hold | hb := h.has hd
  · exact h.registered (hL d hold)
  · cases h with
    | log hk _ =>
        cases hb
        cases hk
    | enlist _ hr =>
        cases hb
        rw [hr.find?, if_pos rfl]
        rfl
    | stage _ _ => exact absurd rfl (hm _ _)
    | partAgain | part _ | evidence _ | revoke _ | activate _ | setEpoch | prune _ _ _ _ _
    | handoff _ _ | expire _ _ _ _ | found _ _ | reincarnate _ _ => cases hb

theorem Steps.rostered {ms : List Move} (h : Steps X ms L L')
    (hms : ∀ m ∈ ms, ∀ k v, m ≠ .stage k v) (hL : L.Rostered) : L'.Rostered := by
  induction h with
  | nil => exact hL
  | cons hm _ ih =>
      exact ih (fun m hmem => hms m (List.mem_cons_of_mem _ hmem))
        (hm.rostered (hms _ List.mem_cons_self) hL)

end Rows

/-! ## Adoption -/

section Adoption

variable {X : Crypto} {g : Nat} {w w' : Work}

theorem adoptStaged_registers {id : String} {r : Receipt}
    (h : adoptStaged X g .device id w = .ok (r, w')) (hs : Sound X w.cell.ledger) :
    (w'.cell.store.registry.find? id).isSome := by
  simp only [adoptStaged, bind_ok, look_ok, require_ok, if_true] at h
  obtain ⟨_, _, ⟨rfl, rfl⟩, obj, _, ⟨hobj, rfl⟩, _, _, ⟨rfl, rfl⟩, h⟩ := h
  obtain ⟨o, ho, hbody⟩ := object_eq_some.mp hobj
  obtain ⟨d, hd, hid⟩ := hs.device_body ho
  obtain rfl := Option.some.inj (hd.symm.trans hbody)
  obtain _ | ⟨hm, hnil⟩ := (enlist_moves h).steps
  obtain _ | _ := hnil
  cases hm with
  | enlist _ hr =>
      have hfind := hr.find? id
      rw [if_pos hid.symm] at hfind
      exact Option.isSome_iff_exists.mpr ⟨_, hfind⟩

theorem Path.sound {Q : Move → Ledger → Prop} {a b : Cell} (h : Path X Q a b)
    (hs : Sound X a.ledger) : Sound X b.ledger :=
  have ⟨_, hsteps⟩ := h.steps
  hs.steps hsteps

theorem Path.registered {Q : Move → Ledger → Prop} {a b : Cell} {id : String} (h : Path X Q a b)
    (hr : (a.store.registry.find? id).isSome) : (b.store.registry.find? id).isSome :=
  have ⟨_, hsteps⟩ := h.steps
  hsteps.registered hr

theorem adoptDevices_registers {ids : List String} {rs : List Receipt}
    (h : collect (adoptStaged X g .device) ids w = .ok (rs, w')) (hs : Sound X w.cell.ledger) :
    ∀ id ∈ ids, (w'.cell.store.registry.find? id).isSome := by
  have hdev : Kind.device ∈ adoptedKinds := by decide
  induction ids generalizing w rs with
  | nil => simp
  | cons id ids ih =>
      obtain ⟨r, w₁, rs', hr, hrs, -⟩ := collect_cons_ok.mp h
      have h₁ := adoptStaged_path hdev hr
      have h₂ : Path X Adopts w₁.cell w'.cell :=
        collect_path (fun _ _ _ _ _ => adoptStaged_path hdev) hrs
      refine List.forall_mem_cons.mpr ⟨h₂.registered (adoptStaged_registers hr hs), ?_⟩
      exact ih hrs (h₁.sound hs)

theorem Path.has_of_adopts {a b : Cell} {k : Kind} {x : Json} (h : Path X Adopts a b)
    (hx : b.ledger.Has k x) : a.ledger.Has k x := by
  obtain ⟨ms, hg⟩ := h.guided
  exact (hg.has (P := False) (fun m M _ hq _ hb => .inl (hq.has hb)) hx).elim id False.elim

/-- After the adoptions every device that is held is registered. -/
theorem adoption_rostered {rs : List (List Receipt)}
    (h : collect (adoptKind X g) adoptedKinds w = .ok (rs, w')) (hs : Sound X w.cell.ledger) :
    w'.cell.ledger.Rostered := by
  have h : collect (adoptKind X g) (.parameters :: .device :: [.envelope, .epoch, .admin]) w =
      .ok (rs, w') := h
  obtain ⟨_, w₁, _, h₁, h, -⟩ := collect_cons_ok.mp h
  obtain ⟨_, w₂, _, h₂, h₃, -⟩ := collect_cons_ok.mp h
  have p₁ := adoptKind_path (by decide) h₁
  have p₂ := adoptKind_path (by decide) h₂
  have p₃ := adoptKinds_path (by decide) h₃
  have hs₁ := p₁.sound hs
  intro d hd
  obtain ⟨o, ho, -⟩ := hs₁.has_row (p₂.has_of_adopts (p₃.has_of_adopts hd))
  have hkey : o.key = (.device, s d "device_id") := Table.key_of_find? ho
  obtain ⟨hk, hid⟩ := Prod.mk.inj hkey
  refine p₃.registered ?_
  cases hlog : o.logId with
  | some l =>
      have hplaced := (hs₁.object_of_find? ho).placed (by rw [hlog]; rfl)
      obtain ⟨rr, hrr⟩ := Option.isSome_iff_exists.mp hplaced
      have hrkey : rr.key = (o.kind, o.objectId) := Table.key_of_find? hrr
      obtain ⟨hrk, hrid⟩ := Prod.mk.inj hrkey
      have hin := hs₁.enrolled rr (Table.mem_of_find? hrr) (hrk.trans hk)
      rw [hrid.trans hid] at hin
      exact p₂.registered hin
  | none =>
      simp only [adoptKind, bind_ok, look_ok] at h₂
      obtain ⟨ids, _, ⟨rfl, rfl⟩, h₂⟩ := h₂
      refine adoptDevices_registers h₂ hs₁ _ ((List.perm_insertionSort _ _).symm.subset ?_)
      refine List.mem_map.mpr ⟨o, Table.mem_select.mpr ⟨Table.mem_of_find? ho, ?_⟩, hid⟩
      simp [hk, hlog]

end Adoption

/-! ## Enlisting -/

section Enlisting

variable {X : Crypto} {L M M' L' : Ledger} {d : Json} {status : Status}

/-- The moves before and after one of a list. -/
theorem Steps.around {m : Move} {ms ms' : List Move} (h : Steps X (ms ++ m :: ms') L L') :
    ∃ M M', Steps X ms L M ∧ Step X m M M' ∧ Steps X ms' M' L' := by
  obtain ⟨M, h₁, h₂⟩ := Steps.of_append h
  obtain _ | ⟨hm, h₃⟩ := h₂
  exact ⟨M, _, h₁, hm, h₃⟩

/-- A device that is enlisted on a complete roster is new: its record is kept
as it is. -/
theorem Step.enlists (h : Step X (.enlist status d) L L') (hs : Sound X L) (hL : L.Rostered) :
    ∃ o, L'.objects.find? (.device, s d "device_id") = some o ∧ o.body = some d := by
  cases h with
  | enlist hl hr =>
      obtain ⟨e, te, -, hf⟩ := hs.enrolled.fresh hl hr
      have hnone : L.objects.find? (.device, s d "device_id") = none := by
        cases ho : L.objects.find? (.device, s d "device_id") with
        | none => rfl
        | some o =>
            obtain ⟨b, hb, hid⟩ := hs.device_body ho
            have hin := hL b (.inl ⟨_, o, ho, hb⟩)
            rw [hid, ← hl.registry, hr.free] at hin
            cases hin
      have hfind := hf.objects (.device, s d "device_id")
      rw [if_pos (show (Kind.device, s d "device_id") = (Kind.device, objectId d .device) from rfl),
        hnone] at hfind
      rw [hr.rest]
      exact ⟨_, hfind, rfl⟩

theorem Committed.steps {commit : EpochCommit} {entry : Option LogEntry} {r : Receipt}
    (h : Committed X commit L M M' L' entry r) :
    Steps X (commit.before ++ .log .epoch commit.epoch :: commit.after (entrySeq entry)) L L' :=
  h.before.append (.cons (.log rfl h.logged) h.after)

/-- The devices of an epoch commit on a complete roster. -/
theorem Committed.enlists {commit : EpochCommit} {entry : Option LogEntry} {r : Receipt}
    (h : Committed X commit L M M' L' entry r) (hs : Sound X L) (hL : L.Rostered)
    (hd : d ∈ commit.staged) :
    ∃ o, L'.objects.find? (.device, s d "device_id") = some o ∧ o.body = some d := by
  have hmem : d ∈ sortDevices commit.staged := (List.perm_insertionSort _ _).symm.subset hd
  obtain ⟨ds, ds', hsplit⟩ := List.append_of_mem hmem
  have hbefore := h.before
  rw [EpochCommit.before, hsplit, List.map_append, List.map_cons] at hbefore
  simp only [List.append_assoc, List.cons_append] at hbefore
  obtain ⟨N, N', h₁, hm, h₃⟩ := hbefore.around
  have hN : N.Rostered := h₁.rostered (fun m hm => by
    obtain ⟨x, -, rfl⟩ := List.mem_map.mp hm
    simp) hL
  obtain ⟨o, ho, hb⟩ := hm.enlists (hs.steps h₁) hN
  obtain ⟨o₁, ho₁, hb₁⟩ := h₃.grows.body (by simp [Kind.removable]) ho hb
  obtain ⟨o₂, ho₂, hb₂⟩ := h.logged.grows.body (by simp [Kind.removable]) ho₁ hb₁
  exact h.after.grows.body (by simp [Kind.removable]) ho₂ hb₂

/-- A re-seed keeps the records of its devices as the request has them. -/
theorem Reseeded.enlists {R : Relay} {v : Json} {imported : Import} {c : Chain} {a mid b : Cell}
    (h : Reseeded R v imported c a mid b) (hs : Sound R.crypto (a.store.ledger c))
    (hd : d ∈ PallaSync.a v "device_records") :
    ∃ o, b.ledger.objects.find? (.device, s d "device_id") = some o ∧ o.body = some d := by
  obtain ⟨rs, w, w', hw, hw', hadopt⟩ := h.adoption
  obtain ⟨M₀, N, N', entry, r, done, hpar, hcommit, -, hcomp⟩ := h.moves
  have hmid : Sound R.crypto mid.ledger := h.adopted.sound hs
  have hroster : mid.ledger.Rostered :=
    hw' ▸ adoption_rostered hadopt (by rw [hw]; exact hs)
  have hroster₀ : M₀.Rostered := hpar.rostered (by simp) hroster
  obtain ⟨o, ho, hb⟩ := hcommit.enlists (hmid.steps hpar) hroster₀ hd
  exact hcomp.grows.body (by simp [Kind.removable]) ho hb

end Enlisting

end PallaSync
