import PallaSync.Beside
import PallaSync.Erasure

/-!
# What a ledger holds

A signed object is held in its row and in its log entries. A transaction makes
the relay hold an object it did not hold before only where one of its moves
brings it; records and snapshot parts are brought by the items of uploads
alone, and `Txn.has` says so of every step.
-/

namespace PallaSync

/-- The object `v` is in a row of its kind or in a log entry. -/
def Ledger.Has (L : Ledger) (kind : Kind) (v : Json) : Prop :=
  (∃ id o, L.objects.find? (kind, id) = some o ∧ o.body = some v) ∨
  ∃ q row e, L.log.find? q = some row ∧ row.entry = some e ∧ e.kind = kind ∧ e.object = v

/-- `Ledger.Has` does not look at the chain row. -/
abbrev Store.Has (st : Store) (kind : Kind) (v : Json) : Prop := (st.ledger .unset).Has kind v

/-- The object a move brings, with its kind. -/
def Move.brings : Move → Option (Kind × Json)
  | .log kind v | .stage kind v => some (kind, v)
  | .enlist _ d => some (.device, d)
  | .part v => some (.snapshotPart, v)
  | _ => none

/-- The kinds that only control requests bring. -/
def Kind.control : Kind → Bool
  | .record | .snapshotPart => false
  | _ => true

section Moves

variable {X : Crypto} {L L' : Ledger} {k : Kind} {x : Json}

theorem Ledger.Has.congr (h : L'.Has k x) (ho : L'.objects = L.objects) (hl : L'.log = L.log) :
    L.Has k x := by
  unfold Ledger.Has at h ⊢
  rwa [ho, hl] at h

/-- One row more, with the body `v` or that of the row before. -/
theorem Ledger.Has.of_find? {q : Kind × String} {v : Json} {r : ObjectRow}
    (ho : ∀ p, L'.objects.find? p = if p = q then some r else L.objects.find? p)
    (hr : r.body = some v ∨ ∃ o, L.objects.find? q = some o ∧ r.body = o.body)
    (hl : L'.log = L.log) (h : L'.Has k x) : L.Has k x ∨ (q.1, v) = (k, x) := by
  obtain ⟨id, o, hfind, hbody⟩ | h := h
  · rw [ho] at hfind
    split at hfind
    · rename_i hq
      cases hfind
      obtain hv | ⟨o, hold, hsame⟩ := hr
      · obtain rfl := Option.some.inj (hv.symm.trans hbody)
        exact .inr (by rw [← hq])
      · exact .inl (.inl ⟨id, o, hq ▸ hold, hsame ▸ hbody⟩)
    · exact .inl (.inl ⟨id, o, hfind, hbody⟩)
  · exact .inl (.inr (hl ▸ h))

theorem Ledger.Bare.not_has (hb : L.Bare) : ¬L.Has k x := by
  rintro (⟨id, o, ho, -⟩ | ⟨q, row, e, hrow, -⟩)
  · rw [hb.objects] at ho
    cases ho
  · rw [hb.log] at hrow
    cases hrow

theorem Logged.has {kind : Kind} {v : Json} {entry : Option LogEntry} {r : Receipt}
    (hl : Logged X kind v entry r L L') (h : L'.Has k x) : L.Has k x ∨ (kind, v) = (k, x) := by
  cases hl with
  | again _ => exact .inl h
  | fresh hf =>
      obtain ⟨id, o, hfind, hbody⟩ | ⟨q, row, e, hfind, he, hkind, hobj⟩ := h
      · rw [hf.objects] at hfind
        split at hfind
        · rename_i hq
          have hrow := Option.some.inj hfind
          cases hold : L.objects.find? (k, id) with
          | some old =>
              rw [hold, adoptedRow_some] at hrow
              refine .inl (.inl ⟨id, old, hold, ?_⟩)
              rw [← hbody, ← hrow]
              split <;> rfl
          | none =>
              rw [hold] at hrow
              rw [← hrow] at hbody
              exact .inr (Prod.ext (Prod.mk.inj hq).1.symm (Option.some.inj hbody))
        · exact .inl (.inl ⟨id, o, hfind, hbody⟩)
      · rw [hf.log] at hfind
        split at hfind
        · obtain rfl := Option.some.inj hfind
          obtain rfl := Option.some.inj he
          exact .inr (Prod.ext (hf.entryKind.symm.trans hkind) (hf.entryObject.symm.trans hobj))
        · exact .inl (.inr ⟨q, row, e, hfind, he, hkind, hobj⟩)

theorem Blanked.has {o : ObjectRow → Bool} {l : LogRow → Bool} (hb : Blanked o l L L')
    (h : L'.Has k x) : L.Has k x := by
  obtain ⟨id, r, hfind, hbody⟩ | ⟨q, row, e, hfind, he, hrest⟩ := h
  · rw [hb.objects] at hfind
    obtain ⟨r₀, hr₀, rfl⟩ := Option.map_eq_some_iff.mp hfind
    split at hbody
    · cases hbody
    · exact .inl ⟨id, r₀, hr₀, hbody⟩
  · rw [hb.log] at hfind
    obtain ⟨r₀, hr₀, rfl⟩ := Option.map_eq_some_iff.mp hfind
    split at he
    · cases he
    · exact .inr ⟨q, r₀, e, hr₀, he, hrest⟩

/-- A move adds nothing but what it brings. -/
theorem Step.has {m : Move} (hm : Step X m L L') (h : L'.Has k x) :
    L.Has k x ∨ m.brings = some (k, x) := by
  cases hm with
  | log _ hl => exact (hl.has h).imp_right (congrArg some)
  | enlist hl hr =>
      exact (hl.has (h.congr (by rw [hr.rest]) (by rw [hr.rest]))).imp_right (congrArg some)
  | partAgain | setEpoch | found _ _ | reincarnate _ _ => exact .inl h
  | part hp =>
      refine (Ledger.Has.of_find? hp.objects (.inl rfl) hp.log h).imp_right (congrArg some)
  | evidence hw => exact .inl (h.congr hw.objects hw.log)
  | stage hk hs =>
      rename_i kind v
      have hobj : ∀ p, L'.objects.find? p = if p = (kind, objectId v kind) then
          some ((L.objects.find? (kind, objectId v kind)).getD
            ⟨kind, objectId v kind, X.objectHash v, some v, none, none⟩)
          else L.objects.find? p := fun p => by
        rw [hs.objects]
        split
        · rename_i hp
          rw [hp]
        · rfl
      refine (Ledger.Has.of_find? hobj ?_ (by rw [hs.rest]) h).imp_right (congrArg some)
      cases L.objects.find? (kind, objectId v kind) with
      | none => exact .inl rfl
      | some o => exact .inr ⟨o, rfl, rfl⟩
  | revoke hw | activate hw => exact .inl (h.congr (by rw [hw.rest]) (by rw [hw.rest]))
  | prune hb _ _ _ _ => exact .inl (hb.has h)
  | handoff _ he => exact .inl (h.congr (by rw [he]) (by rw [he]))
  | expire _ hb _ _ => exact .inl (hb.has h)

theorem Steps.has {ms : List Move} (hs : Steps X ms L L') (h : L'.Has k x) :
    L.Has k x ∨ ∃ m ∈ ms, m.brings = some (k, x) := by
  induction hs with
  | nil => exact .inl h
  | cons hm _ ih =>
      obtain h | ⟨m, hmem, hb⟩ := ih h
      · exact (hm.has h).imp_right fun hb => ⟨_, List.mem_cons_self, hb⟩
      · exact .inr ⟨m, List.mem_cons_of_mem _ hmem, hb⟩

/-- Moves that bring only what is held already, or what `P` allows. -/
theorem Guided.has {Q : Move → Ledger → Prop} {P : Prop} {ms : List Move}
    (hg : Guided X Q ms L L')
    (hQ : ∀ m M M', Q m M → Step X m M M' → m.brings = some (k, x) → M.Has k x ∨ P)
    (h : L'.Has k x) : L.Has k x ∨ P := by
  induction hg with
  | nil => exact .inl h
  | cons hq hm _ ih =>
      obtain h | hp := ih h
      · obtain h | hb := hm.has h
        · exact .inl h
        · exact hQ _ _ _ hq hm hb
      · exact .inr hp

/-- Moves without objects add none. -/
theorem Steps.has_of_none {ms : List Move} (hs : Steps X ms L L')
    (hms : ∀ m ∈ ms, m.brings = none) (h : L'.Has k x) : L.Has k x := by
  obtain h | ⟨m, hm, hb⟩ := hs.has h
  · exact h
  · rw [hms m hm] at hb
    cases hb

end Moves

/-! ## Requests -/

/-- The objects a control request brings, of the kinds `kinds`, are in their
places in its body. -/
structure Carried (kinds : List Kind) (v : Json) (k : Kind) (x : Json) : Prop where
  kind : k ∈ kinds
  parameters : k = .parameters → x = v.get "parameters"
  epoch : k = .epoch → x = v.get "epoch"
  envelope : k = .envelope → x ∈ a v "envelopes"
  device : k = .device → x = v.get "device_record" ∨ x ∈ a v "device_records"

section Requests

variable {R : Relay} {v : Json} {a b mid : Cell} {k : Kind} {x : Json}

theorem Still.has (h : Still a b) (hb : b.ledger.Has k x) : a.ledger.Has k x := h.ledger ▸ hb

/-- An object of a kind with no place of its own. -/
theorem carried_other {kinds : List Kind} {kind : Kind} {y : Json} (hk : kind ∈ kinds)
    (hother : kind = .admin ∨ kind = .compaction) (h : some (kind, y) = some (k, x)) :
    Carried kinds v k x := by
  cases h
  obtain rfl | rfl := hother <;> exact ⟨hk, by simp, by simp, by simp, by simp⟩

theorem Carried.control {kinds : List Kind} (h : Carried kinds v k x)
    (hk : ∀ kind ∈ kinds, kind.control = true) : k.control = true := hk k h.kind

theorem Carried.mono {kinds kinds' : List Kind} (h : Carried kinds v k x) (hk : kinds ⊆ kinds') :
    Carried kinds' v k x := ⟨hk h.kind, h.parameters, h.epoch, h.envelope, h.device⟩

/-- The kinds of a rotation. -/
def rotatedKinds : List Kind := [.device, .envelope, .admin, .epoch]

theorem Committed.has {X : Crypto} {commit : EpochCommit} {L M M' L' : Ledger}
    {entry : Option LogEntry} {r : Receipt} (hc : Committed X commit L M M' L' entry r)
    (hepoch : commit.epoch = v.get "epoch") (henv : commit.envelopes = PallaSync.a v "envelopes")
    (hstaged : ∀ d ∈ commit.staged,
      d = v.get "device_record" ∨ d ∈ PallaSync.a v "device_records") (h : L'.Has k x) :
    L.Has k x ∨ Carried rotatedKinds v k x := by
  have hafter : M'.Has k x := hc.after.has_of_none (fun m hm => by
    simp only [EpochCommit.after, List.mem_append, List.mem_map, List.mem_singleton] at hm
    obtain ⟨id, -, rfl⟩ | rfl := hm <;> rfl) h
  obtain h | he := hc.logged.has hafter
  · obtain h | ⟨m, hm, hb⟩ := hc.before.has h
    · exact .inl h
    · simp only [EpochCommit.before, List.mem_append, List.mem_map] at hm
      obtain (⟨d, hd, rfl⟩ | ⟨e, he, rfl⟩) | ⟨o, -, rfl⟩ := hm
      · cases hb
        exact .inr ⟨by simp [rotatedKinds], by simp, by simp, by simp,
          fun _ => hstaged _ ((List.perm_insertionSort _ _).subset hd)⟩
      · cases hb
        exact .inr ⟨by simp [rotatedKinds], by simp, by simp,
          fun _ => henv ▸ (List.perm_insertionSort _ _).subset he, by simp⟩
      · exact .inr (carried_other (by simp [rotatedKinds]) (.inl rfl) hb)
  · cases he
    exact .inr ⟨by simp [rotatedKinds], by simp, fun _ => hepoch, by simp, by simp⟩

theorem Enrolled.has {auth : Auth} {request : Option Json} (he : Enrolled R auth v request a b)
    (h : b.ledger.Has k x) :
    a.ledger.Has k x ∨ Carried [.device, .envelope, .admin] v k x := by
  obtain h | ⟨m, hm, hb⟩ := he.moves.steps.has h
  · exact .inl h
  · simp only [List.cons_append, List.mem_cons, List.mem_append, List.mem_map] at hm
    obtain rfl | ⟨e, he, rfl⟩ | ⟨o, -, rfl⟩ := hm
    · cases hb
      exact .inr ⟨by simp, by simp, by simp, by simp, fun _ => .inl rfl⟩
    · cases hb
      exact .inr ⟨by simp, by simp, by simp, fun _ => he, by simp⟩
    · exact .inr (carried_other (by simp) (.inl rfl) hb)

theorem Rotated.has {auth : Auth} {target : Option String} (hr : Rotated R auth v target a b)
    (h : b.ledger.Has k x) : a.ledger.Has k x ∨ Carried rotatedKinds v k x :=
  have ⟨_, _, _, _, hc⟩ := hr.committed
  hc.has rfl rfl (fun _ hd => .inr hd) h

theorem Snapshotted.has (hs : Snapshotted R v a b) (h : b.ledger.Has k x) :
    a.ledger.Has k x ∨ Carried [.compaction] v k x := by
  obtain h | ⟨m, hm, hb⟩ := hs.moves.steps.has h
  · exact .inl h
  · obtain rfl := List.mem_singleton.mp hm
    exact .inr (carried_other (by simp) (.inr rfl) hb)

theorem Pruned.has {comp : Json} {rows : List HandoffRow} {expired : List Nat}
    (hp : Pruned R v comp rows expired a mid b) (h : b.ledger.Has k x) :
    a.ledger.Has k x ∨ Carried [.admin] v k x := by
  have hmid : mid.ledger.Has k x := hp.second.steps.has_of_none (fun m hm => by
    simp only [List.mem_append, List.mem_map, List.mem_singleton] at hm
    obtain (⟨row, -, rfl⟩ | ⟨e, -, rfl⟩) | rfl := hm <;> rfl) h
  obtain h | ⟨m, hm, hb⟩ := hp.first.steps.has hmid
  · exact .inl h
  · simp only [List.mem_cons, List.not_mem_nil, or_false] at hm
    obtain rfl | rfl := hm
    · exact .inr (carried_other (by simp) (.inl rfl) hb)
    · cases hb

/-- Re-logging the staged objects adds none. -/
theorem Adopts.has {m : Move} {M : Ledger} (h : Adopts m M) (hb : m.brings = some (k, x)) :
    M.Has k x := by
  cases m with
  | log kind obj =>
      cases hb
      obtain ⟨-, id, o, ho, hbody⟩ := h
      exact .inl ⟨id, o, ho, hbody⟩
  | enlist status d =>
      cases hb
      obtain ⟨-, id, o, ho, hbody⟩ := h
      exact .inl ⟨id, o, ho, hbody⟩
  | part _ | evidence _ _ | stage _ _ | revoke _ _ | activate _ | setEpoch _ | prune _ _
  | handoff _ | expire _ | found _ | reincarnate _ _ => exact h.elim

/-- The kinds of a re-seed, and those of a genesis among them. -/
def reseededKinds : List Kind := .parameters :: .compaction :: rotatedKinds

theorem parameters_carried {X : Crypto} {L L' : Ledger}
    (hp : Steps X [.log .parameters (v.get "parameters")] L L') (h : L'.Has k x) :
    L.Has k x ∨ Carried reseededKinds v k x := by
  obtain h | ⟨m, hm, hb⟩ := hp.has h
  · exact .inl h
  · obtain rfl := List.mem_singleton.mp hm
    cases hb
    exact .inr ⟨by simp [reseededKinds], fun _ => rfl, by simp, by simp, by simp⟩

theorem Reseeded.has {imported : Import} {c : Chain} (hr : Reseeded R v imported c a mid b)
    (h : b.ledger.Has k x) : a.ledger.Has k x ∨ Carried reseededKinds v k x := by
  obtain ⟨M₀, M, M', entry, r, done, hpar, hcommit, -, hcomp⟩ := hr.moves
  obtain ⟨ms, hg⟩ := hr.adopted.guided
  obtain h | ⟨m, hm, hb⟩ := hcomp.has h
  · obtain h | hcar := hcommit.has rfl rfl (fun _ hd => .inr hd) h
    · refine (parameters_carried hpar h).imp_left fun h => ?_
      exact (hg.has (P := False) (fun m M _ hq _ hb => .inl (hq.has hb)) h).elim id False.elim
    · exact .inr (hcar.mono (by simp [reseededKinds]))
  · obtain rfl := List.mem_singleton.mp hm
    exact .inr (carried_other (by simp [reseededKinds]) (.inr rfl) hb)

theorem Begun.has {c : Chain} (hd : Begun R v c a b) (h : b.ledger.Has k x) :
    a.ledger.Has k x ∨ Carried reseededKinds v k x := by
  obtain ⟨M₀, M, M', M₁, entry, r, ms, hpar, hcommit, hms, hrest⟩ := hd.moves
  have h₁ := hrest.has_of_none (fun m hm => by
    have := hms m hm
    cases m <;> first | rfl | exact this.elim) h
  obtain h | hcar := hcommit.has rfl rfl (fun d hd => .inl (List.mem_singleton.mp hd)) h₁
  · exact (parameters_carried hpar h : (a.store.ledger c).Has k x ∨ _)
  · exact .inr (hcar.mono (by simp [reseededKinds]))

/-- An import adds objects of the staged kinds, from its body. -/
theorem Imported.has (hi : Imported R v a mid b) (h : b.ledger.Has k x) :
    a.ledger.Has k x ∨ k.staged = true ∧ x ∈ PallaSync.a v k.history := by
  obtain ⟨ms, hg⟩ := hi.path.guided
  have hmid : mid.ledger.Has k x := by
    obtain ⟨-, hstill⟩ | ⟨-, hst⟩ := hi.row
    · exact hstill.has h
    · show (mid.store.ledger b.chain).Has k x
      rw [← hst.ledger]
      exact h
  refine hg.has (fun m M M' hq hm hb => ?_) hmid
  cases hm with
  | stage hk _ =>
      cases hb
      exact .inr ⟨hk, hq.1⟩
  | log _ _ | enlist _ _ | partAgain | part _ | evidence _ | revoke _ | activate _ | setEpoch
  | prune _ _ _ _ _ | handoff _ _ | expire _ _ _ _ | found _ _ | reincarnate _ _ => exact hq.elim

theorem Mutated.has {call : Call} (hm : Mutated R call a b) (hroute : call.route ≠ .delete)
    (h : b.ledger.Has k x) : a.ledger.Has k x ∨ Carried reseededKinds call.value k x := by
  cases hm with
  | still hst => exact .inl (hst.has h)
  | enrolled _ he hst =>
      exact (he.has (hst.has h)).imp_right (·.mono (by simp [reseededKinds, rotatedKinds]))
  | rotated _ hr => exact (hr.has h).imp_right (·.mono (by simp [reseededKinds]))
  | acknowledged _ hk =>
      exact .inl (hk.moves.steps.has_of_none (by simp [Move.brings]) h)
  | snapshotted _ hs => exact (hs.has h).imp_right (·.mono (by simp [reseededKinds]))
  | pruned _ _ hp =>
      exact (hp.has h).imp_right (·.mono (by simp [reseededKinds, rotatedKinds]))
  | reseeded _ _ hr => exact hr.has h
  | deleted hr _ _ _ => exact absurd hr hroute

theorem reseededKinds_control : ∀ kind ∈ reseededKinds, kind.control = true := by decide

/-- A deletion brings the operation that authorizes it. -/
theorem Departed.has (hd : Departed R a b) (h : b.ledger.Has k x) :
    a.ledger.Has k x ∨ k.control = true := by
  obtain ⟨ops, M, digest, hsteps, hw⟩ := hd.moves
  refine (hsteps.has (h.congr hw.objects hw.log)).imp_right fun ⟨m, hm, hb⟩ => ?_
  obtain ⟨op, -, rfl⟩ := List.mem_map.mp hm
  cases hb
  rfl

/-- A request that is not an upload brings objects of the control kinds only. -/
theorem Executed.has {call : Call} (he : Executed R call a b) (hroute : call.route ≠ .delete)
    (h : b.ledger.Has k x) : a.ledger.Has k x ∨ k.control = true := by
  cases he with
  | begun _ hd => exact (hd.has h).imp_right (·.control reseededKinds_control)
  | repeated _ hst | read _ _ hst => exact .inl (hst.has h)
  | imported _ _ hi =>
      refine (hi.has h).imp_right fun ⟨hk, _⟩ => ?_
      cases k <;> first | rfl | cases hk
  | mutated _ _ hm hs =>
      exact (hm.has hroute (hs.ledger ▸ h)).imp_right (·.control reseededKinds_control)

theorem executeTx_has {call : Call} {w w' : Work} {r : Reply}
    (hx : executeTx R call w = .ok (r, w')) (h : w'.cell.ledger.Has k x) :
    w.cell.ledger.Has k x ∨ k.control = true := by
  by_cases hroute : call.route = .delete
  · exact (executeTx_departs hroute hx).has h
  · exact (executeTx_ok hx).has hroute h

/-- A repaired record is in the log already, in the entry that is claimed. -/
theorem repairCheck_entry {X : Crypto} {st : Store} {c : Chain} {call : Call} {source r : Json}
    (h : repairCheck X st c call source r = .ok ()) : ∃ e,
      st.logEntry (s call.value "source_log_id") (n source "relay_seq") = some e ∧
        e.toJson = source ∧ e.kind = .record ∧ e.object = r := by
  simp only [repairCheck, Check.bind_ok, Check.failIf_ok, bne_eq_false_iff_eq] at h
  obtain ⟨_, -, _, -, _, hfields, _, hobj, hknown⟩ := h
  obtain ⟨e, he, rfl⟩ := Option.map_eq_some_iff.mp hknown
  have hkind : e.kind = .record := by
    simp only [LogEntry.toJson, fields, sourceFields, Check.bind_ok, Check.failIf_ok,
      Bool.not_eq_false', List.all_cons, Bool.and_eq_true] at hfields
    obtain ⟨_, ⟨-, -, hk, -⟩, -⟩ := hfields
    cases hcommitted : e.committedAtMs <;> cases hkind : e.kind <;>
      first
        | rfl
        | (simp [hcommitted, hkind, List.lookup_cons, checkType, Json.asStr, Kind.text] at hk)
  have hobject : e.object = r := by
    rw [← hobj]
    cases hcommitted : e.committedAtMs <;>
      simp [LogEntry.toJson, Json.get, hcommitted, List.lookup_cons]
  exact ⟨e, he, rfl, hkind, hobject⟩

theorem repaired_has {X : Crypto} {st : Store} {c : Chain} {call : Call} {source r : Json}
    (h : repairCheck X st c call source r = .ok ()) : st.Has .record r := by
  obtain ⟨e, he, -, hkind, hobject⟩ := repairCheck_entry h
  obtain ⟨row, hrow, hentry⟩ := Option.bind_eq_some_iff.mp he
  exact .inr ⟨_, row, e, hrow, hentry, hkind, hobject⟩

/-- An item brings its own object; a repair brings none. -/
theorem ItemMoved.has {call : Call} {index : Nat} {r : Json} (hi : ItemMoved R call index r a b)
    (h : b.ledger.Has k x) : a.ledger.Has k x ∨ x = r ∧
      ((k = .envelope ∧ call.route = .envelopesPost) ∨
        k.control = false ∧ call.route ≠ .envelopesPost ∧ call.route ≠ .repair) := by
  cases hi with
  | envelope hroute _ hm =>
      obtain h | ⟨m, hmem, hb⟩ := hm.steps.has h
      · exact .inl h
      · obtain rfl := List.mem_singleton.mp hmem
        cases hb
        exact .inr ⟨rfl, .inl ⟨rfl, hroute⟩⟩
  | repair hroute hcheck hm =>
      obtain h | ⟨m, hmem, hb⟩ := hm.steps.has h
      · exact .inl h
      · obtain rfl := List.mem_singleton.mp hmem
        cases hb
        exact .inl (repaired_has hcheck)
  | part hroute _ hm =>
      obtain h | ⟨m, hmem, hb⟩ := hm.steps.has h
      · exact .inl h
      · obtain rfl := List.mem_singleton.mp hmem
        cases hb
        exact .inr ⟨rfl, .inr ⟨rfl, by rw [hroute]; simp, by rw [hroute]; simp⟩⟩
  | record he hr _ _ _ hm =>
      obtain h | ⟨m, hmem, hb⟩ := hm.steps.has h
      · exact .inl h
      · obtain rfl := List.mem_singleton.mp hmem
        cases hb
        exact .inr ⟨rfl, .inr ⟨rfl, he, hr⟩⟩

/-- A stored part is not stored a second time. -/
theorem Step.part_again {X : Crypto} {L L' : Ledger} {v : Json} (h : Step X (.part v) L L')
    (ho : (L.objects.find? (.snapshotPart, s v "record_id")).isSome) : L' = L := by
  cases h with
  | partAgain => rfl
  | part hp =>
      rw [hp.free] at ho
      cases ho

theorem Store.Has.of_object {st : Store} {id : String} (h : st.object k id = some x) :
    st.Has k x := by
  obtain ⟨o, ho, hb⟩ := object_eq_some.mp h
  exact .inl ⟨id, o, ho, hb⟩

theorem objectDigest_isSome {st : Store} {id : String} :
    (st.objectDigest k id).isSome = (st.objects.find? (k, id)).isSome := by
  simp [Store.objectDigest]

end Requests

/-! ## Steps -/

section Steps

variable {X : Crypto} {w : World} {id : String} {ev : Event} {st st' : Store} {k : Kind} {x : Json}

/-- A commit that no request caused brings nothing. -/
theorem Commit.has {R : Relay} (h : Commit R none st st') (hx : st'.Has k x) : st.Has k x := by
  generalize hcause : (none : Option Call) = cause at h
  cases h with
  | execute | item => cases hcause
  | evidence _ hms hm hs =>
      exact hm.steps.has_of_none (fun m hm => by
        have := hms m hm
        cases m <;> first | rfl | exact this.elim) (hs.ledger ▸ hx)
  | enrollment _ hst => exact hst.has hx
  | expire _ hm =>
      exact hm.steps.has_of_none (fun m hm => by
        obtain ⟨e, -, rfl⟩ := List.mem_map.mp hm
        rfl) hx
  | erase =>
      unfold Store.erase at hx
      split at hx
      · obtain ⟨id, o, hfind, -⟩ | ⟨q, row, e, hfind, -⟩ := hx <;> cases hfind
      · exact hx
  | finish h =>
      unfold Store.finish at h
      split at h
      · exact Except.ok.inj h ▸ hx
      · split at h
        · obtain ⟨_, -, h⟩ := Check.bind_ok.mp h
          obtain rfl := Check.pure_ok.mp h
          exact hx
        · exact Except.ok.inj h ▸ hx

/-- The relay comes to hold a record or a snapshot part only as the item of
an upload that is no repair. -/
theorem Txn.has (h : Txn X w id ev st') (hk : k.control = false) (hx : st'.Has k x) :
    (w.store id).Has k x ∨ ∃ call index, w.uploading ev = some (call, index, x) ∧
      call.chain = id ∧ call.route ≠ .envelopesPost ∧ call.route ≠ .repair := by
  have silent : st' = w.store id ∨ Commit (w.relay X) none (w.store id) st' →
      (w.store id).Has k x := fun h => by
    obtain rfl | h := h
    · exact hx
    · exact h.has hx
  cases h with
  | kept => exact .inl hx
  | executed ht hid =>
      obtain he | ⟨reply, b, -, hrun, he⟩ := stepExecute_run (w.relay X) _ _ (w.store id)
      · exact .inl (he ▸ hx)
      · rw [he] at hx
        obtain ⟨v, v', hv, hm, rfl⟩ := run_ok hrun
        obtain h | hc := executeTx_has hm hx
        · rw [hv] at h
          exact .inl h
        · rw [hk] at hc
          cases hc
  | item ht hid hrem =>
      rename_i call p item rest
      obtain he | ⟨mid, b, -, -, -, hmoved, hsaved, he⟩ :=
        stepItem_ok (w.relay X) _ _ _ _ _ _ (w.store id)
      · exact .inl (he ▸ hx)
      · rw [he] at hx
        have hmid : mid.ledger.Has k x := by
          rw [← hsaved.ledger]
          exact hx
        obtain h | ⟨hitem, ⟨rfl, -⟩ | ⟨-, he, hr⟩⟩ := hmoved.has hmid
        · exact .inl h
        · cases hk
        · exact .inr ⟨call, item.1, by simp [World.uploading, ht, hrem, hitem], hid, he, hr⟩
  | itemAudit _ _ => exact .inl (silent (stepItemAudit_commit _ _ _ _ _ _ _ _))
  | audit _ _ => exact .inl (silent (stepAudit_commit _ _ _ _ _))
  | erased _ => exact .inl (silent (.inr .erase))
  | finished _ h => exact .inl (silent (.inr (.finish h)))
  | notice _ h => exact .inl (silent (noticeStore_commit h))
  | enrollment _ h => exact .inl (silent (.inr (enrollment_commit h)))
  | expired h => exact .inl (silent (expireStore_commit h))

/-- `Txn.has`, with all that is known of the upload. -/
theorem Txn.payload (h : Txn X w id ev st') (hk : k.control = false) (hx : st'.Has k x) :
    (w.store id).Has k x ∨
      ∃ call index mid b, Uploading X w id ev call index x mid b ∧ st' = b.store := by
  obtain hold | ⟨call, index, hup, -, he, hr⟩ := h.has hk hx
  · exact .inl hold
  · obtain haside | ⟨-, hcleared⟩ := h.beside
    · cases haside with
      | kept _ _ hitem =>
          obtain hroute | hroute | hstore := hitem _ _ hup
          · exact absurd hroute he
          · exact absurd hroute hr
          · exact .inl (hstore ▸ hx)
      | imported _ hnone _ _ _ _ | reseeded _ hnone _ _ => simp [hup] at hnone
      | uploaded hu hst =>
          cases hup.symm.trans hu.event
          exact .inr ⟨_, _, _, _, hu, hst⟩
    · rw [hcleared] at hx
      obtain ⟨_, _, hfind, -⟩ | ⟨_, _, _, hfind, -⟩ := hx <;> cases hfind

end Steps

end PallaSync
