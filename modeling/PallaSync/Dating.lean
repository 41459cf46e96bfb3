import PallaSync.Ancestry
import PallaSync.Delivery
import PallaSync.ObjectPages
import PallaSync.Roster

/-!
# The position of a revocation

A device is listed as revoked with the position of its revocation, as far as
that is a position of the log that is read. An epoch that revokes a device
notes its own position with it. A re-seed notes none for a device that it
registers as revoked, and starts a log in which the positions noted before
mean nothing (`undated_revocation`). Where no re-seed does the one, and the new
log is long enough for the other, status and position agree
(`listed_revocations_dated`).
-/

namespace PallaSync

open Atomic Machine

/-- A revoked device has the position of its revocation, `k` at most. -/
def RegistryRow.Dated (row : RegistryRow) (k : Nat) : Prop :=
  row.status = .revoked → ∃ q, row.revokedSeq = some q ∧ q ≤ k

def Ledger.Dated (L : Ledger) (k : Nat) : Prop :=
  ∀ id row, L.registry.find? id = some row → row.Dated k

theorem Ledger.Dated.mono {L : Ledger} {j k : Nat} (h : L.Dated j) (hle : j ≤ k) : L.Dated k :=
  fun id row hrow hrevoked => by
    obtain ⟨q, hq, hqj⟩ := h id row hrow hrevoked
    exact ⟨q, hq, hqj.trans hle⟩

/-- The moves that revoke no device but at a position up to `k`, in the log
that there is. -/
def Move.dates (k : Nat) : Move → Prop
  | .enlist status _ => status ≠ .revoked
  | .revoke seq _ => seq ≤ k
  | .found _ | .reincarnate .. => False
  | _ => True

section Moves

variable {X : Crypto} {L L' M M' : Ledger} {k : Nat} {id : String}

theorem Step.dated {m : Move} (h : Step X m L L') (hm : m.dates k) (hL : L.Dated k) :
    L'.Dated k := by
  intro id row' hrow' hrevoked
  have kept (he : L'.registry = L.registry) : ∃ q, row'.revokedSeq = some q ∧ q ≤ k :=
    hL id row' (he ▸ hrow') hrevoked
  cases h with
  | log _ hl => exact kept hl.registry
  | enlist hl hd =>
      rw [hd.find?] at hrow'
      split at hrow'
      · obtain rfl := Option.some.inj hrow'
        exact absurd hrevoked hm
      · exact hL id row' (hl.registry ▸ hrow') hrevoked
  | partAgain | setEpoch => exact hL id row' hrow' hrevoked
  | part hp => exact kept hp.registry
  | evidence hw => exact kept hw.registry
  | stage _ hs => exact kept (by rw [hs.rest])
  | revoke hw =>
      rw [hw.find?] at hrow'
      obtain ⟨row, hrow, rfl⟩ := Option.map_eq_some_iff.mp hrow'
      unfold RegistryRow.revokeAt at hrevoked ⊢
      split
      · exact ⟨_, rfl, hm⟩
      · rename_i hne
        rw [if_neg hne] at hrevoked
        exact hL id row hrow hrevoked
  | activate hw =>
      rw [hw.find?] at hrow'
      obtain ⟨row, hrow, rfl⟩ := Option.map_eq_some_iff.mp hrow'
      unfold RegistryRow.activateAs at hrevoked ⊢
      split
      · rename_i hown
        rw [if_pos hown] at hrevoked
        cases hrevoked
      · rename_i hne
        rw [if_neg hne] at hrevoked
        exact hL id row hrow hrevoked
  | prune hb _ _ _ _ => exact kept hb.registry
  | handoff _ he => exact kept (by rw [he])
  | expire _ hb _ _ => exact kept hb.registry
  | found _ _ | reincarnate _ _ => exact hm.elim

theorem Steps.dated {ms : List Move} (h : Steps X ms L L') (hms : ∀ m ∈ ms, m.dates k)
    (hL : L.Dated k) : L'.Dated k :=
  h.preserves (P := fun L => L.Dated k) (C := fun m => m.dates k)
    (fun _ _ _ hm hs hL => hs.dated hm hL) hms hL

/-- The ledger goes on in its log, by such moves. -/
def Dates (X : Crypto) (k : Nat) (L L' : Ledger) : Prop :=
  ∃ ms : List Move, (∀ m ∈ ms, m.dates k) ∧ Steps X ms L L'

theorem Dates.refl (L : Ledger) : Dates X k L L := ⟨[], by simp, .nil⟩

theorem Dates.trans (h : Dates X k L M) (h' : Dates X k M L') : Dates X k L L' := by
  obtain ⟨ms, hms, hs⟩ := h
  obtain ⟨ms', hms', hs'⟩ := h'
  exact ⟨ms ++ ms', List.forall_mem_append.mpr ⟨hms, hms'⟩, hs.append hs'⟩

theorem Dates.dated (h : Dates X k L L') (hL : L.Dated k) : L'.Dated k :=
  have ⟨_, hms, hs⟩ := h
  hs.dated hms hL

theorem Dates.placements (h : Dates X k L L') : Placements L L' := by
  obtain ⟨ms, hms, hs⟩ := h
  refine (Placements.refl L).steps hs fun m hm => ⟨fun c he => ?_, fun p l he => ?_⟩
  · exact (he ▸ hms m hm : (Move.found c).dates k)
  · exact (he ▸ hms m hm : (Move.reincarnate p l).dates k)

theorem Moves.dates {ms : List Move} {a b : Cell} (h : Moves X ms a b)
    (hms : ∀ m ∈ ms, m.dates k) : Dates X k a.ledger b.ledger :=
  ⟨ms, hms, h.steps⟩

theorem Path.dates {Q : Move → Ledger → Prop} {a b : Cell} (h : Path X Q a b)
    (hQ : ∀ m L, Q m L → m.dates k) : Dates X k a.ledger b.ledger := by
  obtain ⟨ms, hg⟩ := h.guided
  obtain ⟨hs, hms⟩ := hg.steps_of hQ
  exact ⟨ms, hms, hs⟩

/-- An epoch commit revokes at the position of its epoch. -/
theorem Committed.dates {commit : EpochCommit} {entry : Option LogEntry} {r : Receipt}
    (h : Committed X commit L M M' L' entry r)
    (hk : strings commit.epoch "revoked_device_ids" ≠ [] → entrySeq entry ≤ k) :
    Dates X k L L' := by
  refine .trans ⟨_, fun m hm => ?_, h.before⟩ (.trans
    ⟨[.log .epoch commit.epoch], by simp [Move.dates], .single (.log rfl h.logged)⟩
    ⟨_, fun m hm => ?_, h.after⟩)
  · simp only [EpochCommit.before, List.mem_append, List.mem_map] at hm
    obtain (⟨_, -, rfl⟩ | ⟨_, -, rfl⟩) | ⟨_, -, rfl⟩ := hm
    · exact commit.status_ne
    · trivial
    · trivial
  · simp only [EpochCommit.after, List.mem_append, List.mem_map, List.mem_singleton] at hm
    obtain ⟨_, hid, rfl⟩ | rfl := hm
    · exact hk (List.ne_nil_of_mem hid)
    · trivial

/-- The position at which an epoch commit revokes is in the log that it writes,
unless the epoch was logged before, in another log. -/
theorem Committed.position {commit : EpochCommit} {entry : Option LogEntry} {r : Receipt}
    (h : Committed X commit L M M' L' entry r) (hs : Sound X M) :
    entrySeq entry ≤ M'.chain.headSeq ∨ ∃ o l, l ≠ M.chain.logId ∧
      M.objects.find? (.epoch, toString (n commit.epoch "epoch")) = some o ∧
      o.logId = some l ∧ o.relaySeq = some (entrySeq entry) := by
  cases h.logged with
  | fresh hf =>
      left
      rw [hf.chain]
      exact hf.entrySeq.le
  | again ha =>
      cases hentry : entry with
      | none => exact .inl (Nat.zero_le _)
      | some e =>
          subst hentry
          obtain ⟨rr, hrr, rfl⟩ := ha.receipt
          obtain ⟨row, hrow, he⟩ := ha.row
          have hok := hs.receipt_of_find? hrr
          obtain ⟨hrkind, hrid⟩ := Prod.mk.inj (Table.key_of_find? hrr : rr.key = _)
          cases hseq : rr.seq with
          | none =>
              have hpart := hok.part.mp hseq
              rw [hrkind] at hpart
              cases hpart
          | some i =>
              obtain ⟨o, ho, -, hplace⟩ := hok.object
              obtain ⟨hl, hi⟩ := hplace (by rw [hseq]; rfl)
              rw [hok.logId, hok.relaySeq, hseq] at hrow
              obtain ⟨⟨row', hrow', -, hentries, -⟩, -⟩ := hok.position i hseq
              obtain rfl := Option.some.inj (hrow'.symm.trans hrow)
              have hei : entrySeq (some e) = i :=
                Option.some.inj ((hentries e he).relaySeq.symm.trans hseq)
              rw [hei]
              by_cases hlog : rr.logId = M.chain.logId
              · left
                rw [hlog] at hrow'
                exact ((hs.log_dom i).mp (by rw [hrow']; rfl)).2
              · rw [hrkind, hrid] at ho
                exact .inr ⟨o, rr.logId, hlog, ho, hl, hi.trans hseq⟩

end Moves

/-! ## Adoption -/

section Adoption

variable {X : Crypto} {a b : Cell} {g k : Nat} {w w' : Work}

/-- The device is of the generation, and no stored epoch revokes it. -/
def Store.Welcomes (st : Store) (g : Nat) (id : String) : Prop :=
  everRevoked st id = false ∧ ∀ d, st.object .device id = some d → n d "generation" = g

/-- Adoption brings no body that was not there. -/
theorem Path.object_of_adopts {kind : Kind} {id : String} {v : Json} (h : Path X Adopts a b)
    (hs : Sound X a.ledger) (hv : b.store.object kind id = some v) :
    ∃ o, a.store.objects.find? (kind, id) = some o ∧ o.body = some v ∧
      ∀ o', b.store.objects.find? (kind, id) = some o' → o'.logId = none → o.logId = none := by
  obtain ⟨o', ho', hb'⟩ := object_eq_some.mp hv
  obtain ⟨ms, hsteps⟩ := h.steps
  have hs' : Sound X b.ledger := hs.steps hsteps
  obtain ⟨hk, hid⟩ := Prod.mk.inj (Table.key_of_find? ho' : o'.key = (kind, id))
  have hobj := (hs'.object_of_find? (L := b.ledger) ho').body v hb'
  rw [hk, hid] at hobj
  obtain ⟨o, ho, -⟩ := hs.has_row (h.has_of_adopts (.inl ⟨id, o', ho', hb'⟩))
  rw [hobj.2] at ho
  obtain ⟨o₁, ho₁, hlater⟩ := hsteps.grows.objects _ o ho
  obtain rfl := Option.some.inj (ho₁.symm.trans ho')
  refine ⟨o, ho, ?_, fun o₂ ho₂ hnone => ?_⟩
  · obtain hsame | ⟨hnone, -⟩ := hlater.body
    · exact hsame.symm.trans hb'
    · rw [hb'] at hnone
      cases hnone
  · obtain rfl := Option.some.inj (ho₂.symm.trans ho')
    cases hlog : o.logId with
    | none => rfl
    | some l =>
        have hsame := (hlater.placed (by rw [hlog]; rfl)).1
        rw [hnone, hlog] at hsame
        cases hsame

theorem Path.welcomes {id : String} (h : Path X Adopts a b) (hs : Sound X a.ledger)
    (hw : a.store.Welcomes g id) : b.store.Welcomes g id := by
  obtain ⟨hrevoked, hgen⟩ := hw
  refine ⟨?_, fun d hd => ?_⟩
  · rw [everRevoked, List.any_eq_false] at hrevoked ⊢
    intro e he
    obtain ⟨x, hx, hbody⟩ := List.mem_filterMap.mp he
    have hx : x ∈ b.store.objects := hx
    split at hbody
    · rename_i hepoch
      have hfind := Table.find?_of_mem hx
      rw [ObjectRow.key, hepoch] at hfind
      obtain ⟨y, hy, hby, -⟩ := h.object_of_adopts hs (object_eq_some.mpr ⟨x, hfind, hbody⟩)
      have hky : y.kind = .epoch := congrArg Prod.fst (Table.key_of_find? hy : y.key = _)
      exact hrevoked e (List.mem_filterMap.mpr
        ⟨y, Table.mem_of_find? hy, by rw [if_pos hky, hby]⟩)
    · cases hbody
  · obtain ⟨o, ho, hb, -⟩ := h.object_of_adopts hs hd
    exact hgen d (object_eq_some.mpr ⟨o, ho, hb⟩)

theorem mem_stagedIds {st : Store} {kind : Kind} {id : String} :
    id ∈ stagedIds st kind ↔ ∃ o, st.objects.find? (kind, id) = some o ∧ o.logId = none := by
  rw [stagedIds, List.mem_insertionSort]
  constructor
  · intro h
    obtain ⟨o, ho, rfl⟩ := List.mem_map.mp h
    obtain ⟨hmem, hstaged⟩ := Table.mem_select.mp ho
    obtain ⟨hkind, hlog⟩ := Bool.and_eq_true_iff.mp hstaged
    have hfind := Table.find?_of_mem hmem
    rw [ObjectRow.key, of_decide_eq_true hkind] at hfind
    exact ⟨o, hfind, Option.isNone_iff_eq_none.mp hlog⟩
  · rintro ⟨o, ho, hlog⟩
    obtain ⟨hkind, rfl⟩ := Prod.mk.inj (Table.key_of_find? ho : o.key = (kind, id))
    refine List.mem_map.mpr ⟨o, Table.mem_select.mpr ⟨Table.mem_of_find? ho, ?_⟩, rfl⟩
    simp [hkind, hlog]

/-- What is staged after some adoptions was staged before. -/
theorem Path.staged_of_adopts {id : String} (h : Path X Adopts a b) (hs : Sound X a.ledger)
    (hid : id ∈ stagedIds b.store .device) : id ∈ stagedIds a.store .device := by
  obtain ⟨o', ho', hlog⟩ := mem_stagedIds.mp hid
  obtain ⟨d, hd, -⟩ := (h.sound hs).device_body (L := b.ledger) ho'
  obtain ⟨o, ho, -, hnone⟩ := h.object_of_adopts hs (object_eq_some.mpr ⟨o', ho', hd⟩)
  exact mem_stagedIds.mpr ⟨o, ho, hnone o' ho' hlog⟩

theorem adoptStaged_dates {kind : Kind} {id : String} {r : Receipt} (hk : kind ∈ adoptedKinds)
    (h : adoptStaged X g kind id w = .ok (r, w'))
    (hw : kind = .device → w.cell.store.Welcomes g id) :
    Dates X k w.cell.ledger w'.cell.ledger := by
  simp only [adoptStaged, bind_ok, look_ok, require_ok] at h
  obtain ⟨_, _, ⟨rfl, rfl⟩, obj, _, ⟨hobj, rfl⟩, h⟩ := h
  rcases ite_ok.mp h with ⟨hdev, h⟩ | ⟨hne, h⟩
  · simp only [bind_ok, look_ok] at h
    obtain ⟨_, _, ⟨rfl, rfl⟩, h⟩ := h
    obtain ⟨hrevoked, hgen⟩ := hw hdev
    refine (enlist_moves h).dates (List.forall_mem_singleton.mpr ?_)
    simp [Move.dates, hrevoked, hgen obj (hdev ▸ hobj)]
  · simp only [bind_ok, pure_ok] at h
    obtain ⟨_, _, happ, -, rfl⟩ := h
    have hlogged : kind.logged = true := by
      revert hk hne
      cases kind <;> decide
    exact (append_moves hlogged happ).dates (by simp [Move.dates])

theorem adoptEach_dates {kind : Kind} {ids : List String} {rs : List Receipt}
    (hk : kind ∈ adoptedKinds) (h : collect (adoptStaged X g kind) ids w = .ok (rs, w'))
    (hs : Sound X w.cell.ledger) (hw : kind = .device → ∀ id ∈ ids, w.cell.store.Welcomes g id) :
    Dates X k w.cell.ledger w'.cell.ledger := by
  induction ids generalizing w rs with
  | nil =>
      obtain ⟨-, rfl⟩ := collect_nil_ok.mp h
      exact .refl _
  | cons id ids ih =>
      obtain ⟨r, w₁, rs', hr, hrs, -⟩ := collect_cons_ok.mp h
      have hpath := adoptStaged_path hk hr
      refine (adoptStaged_dates hk hr fun hdev => hw hdev id List.mem_cons_self).trans
        (ih hrs (hpath.sound hs) fun hdev id' hid' => ?_)
      exact hpath.welcomes hs (hw hdev id' (List.mem_cons_of_mem _ hid'))

/-- Where no staged device is to be registered as revoked, none is. -/
theorem adoption_dates {kinds : List Kind} {rs : List (List Receipt)} (hk : kinds ⊆ adoptedKinds)
    (h : collect (adoptKind X g) kinds w = .ok (rs, w')) (hs : Sound X w.cell.ledger)
    (hw : ∀ id ∈ stagedIds w.cell.store .device, w.cell.store.Welcomes g id) :
    Dates X k w.cell.ledger w'.cell.ledger := by
  induction kinds generalizing w rs with
  | nil =>
      obtain ⟨-, rfl⟩ := collect_nil_ok.mp h
      exact .refl _
  | cons kind kinds ih =>
      obtain ⟨r, w₁, rs', hr, hrs, -⟩ := collect_cons_ok.mp h
      have hpath := adoptKind_path (hk List.mem_cons_self) hr
      have hone : Dates X k w.cell.ledger w₁.cell.ledger := by
        simp only [adoptKind, bind_ok, look_ok] at hr
        obtain ⟨_, _, ⟨rfl, rfl⟩, hr⟩ := hr
        refine adoptEach_dates (hk List.mem_cons_self) hr hs fun hdev => ?_
        subst hdev
        exact hw
      refine hone.trans (ih (fun x hx => hk (List.mem_cons_of_mem _ hx)) hrs (hpath.sound hs)
        fun id hid => hpath.welcomes hs (hw id (hpath.staged_of_adopts hs hid)))

end Adoption

/-! ## Acts -/

/-- Where the step from `c` to `c'` commits an epoch that revokes devices, and
that another log holds already, its position there is one of the log of `c'`. -/
def Store.RevokesInLog (st : Store) (c c' : Chain) : Prop :=
  c'.epoch ≠ c.epoch → strings c'.epoch "revoked_device_ids" ≠ [] → ∀ o l i,
    st.objects.find? (.epoch, toString (n c'.epoch "epoch")) = some o → o.logId = some l →
    l ≠ c'.logId → o.relaySeq = some i → i ≤ c'.headSeq

/-- Where the step from `c` to `c'` is a re-seed, it registers no staged device
as revoked, and its log is as long as all positions of revocation noted before. -/
def Store.ReseedsDated (st : Store) (c c' : Chain) : Prop :=
  c'.generation ≠ c.generation →
    (∀ id ∈ stagedIds st .device, st.Welcomes c.generation id) ∧
    ∀ row ∈ st.registry, ∀ q, row.revokedSeq = some q → q ≤ c'.headSeq

section Acts

variable {R : Relay} {cause : Option Call} {a b mid : Cell} {call : Call} {k : Nat}

/-- An epoch commit on a ledger that went on from `A` in its log. -/
theorem Committed.dated {commit : EpochCommit} {A L M M' L' : Ledger} {entry : Option LogEntry}
    {r : Receipt} (h : Committed R.crypto commit L M M' L' entry r) (hs : Sound R.crypto L)
    (hL : Placements A L) (hk : L'.chain.headSeq ≤ k)
    (hlogged : strings commit.epoch "revoked_device_ids" ≠ [] → ∀ o l i,
      A.objects.find? (.epoch, toString (n commit.epoch "epoch")) = some o →
      o.logId = some l → l ≠ A.chain.logId → o.relaySeq = some i → i ≤ k) :
    Dates R.crypto k L L' := by
  have hbefore : Placements A M := hL.steps h.before fun m hm => by
    have hlogs := commit.before_logs m hm
    refine ⟨fun c he => ?_, fun p l he => ?_⟩
    · subst he
      cases hlogs
    · subst he
      cases hlogs
  have hafter : Placements M' L' := (Placements.refl M').steps h.after fun m hm => by
    simp only [EpochCommit.after, List.mem_append, List.mem_map, List.mem_singleton] at hm
    obtain ⟨_, -, rfl⟩ | rfl := hm <;> exact ⟨by simp, by simp⟩
  refine h.dates fun hrevokes => ?_
  obtain hle | ⟨o, l, hl, ho, hlog, hseq⟩ := h.position (hs.steps h.before)
  · exact hle.trans (hafter.headSeq.trans hk)
  · have hother : l ≠ A.chain.logId := fun he => hl (he.trans hbefore.logId.symm)
    obtain ⟨o₀, ho₀, hlog₀, hseq₀⟩ := hbefore.old _ o ho (by
      rw [ObjectRow.placedUpTo, hlog, Option.any_some, bne_iff_ne.mpr hother, Bool.true_or])
    exact hlogged hrevokes o₀ l _ ho₀ (hlog₀.trans hlog) hother (hseq₀.trans hseq)

theorem Rotated.dates {auth : Auth} {v : Json} {device : Option String}
    (h : Rotated R auth v device a b) (hs : Sound R.crypto a.ledger)
    (hlogged : a.store.RevokesInLog a.chain b.chain) :
    Dates R.crypto b.chain.headSeq a.ledger b.ledger := by
  obtain ⟨M, M', entry, r, hc⟩ := h.committed
  obtain ⟨N, hN, hb⟩ := hc.split
  have hrow : b.chain = (N.atEpoch (epochCommit v).epoch).chain := congrArg Ledger.chain hb
  have hepoch : b.chain.epoch = v.get "epoch" := by rw [hrow]; rfl
  have hlog : b.chain.logId = a.chain.logId := by
    rw [hrow]
    exact hN.sameTerms.logId
  have hnext := (epochCheck_ok h.checked).bundle.succession.next rfl
  refine hc.dated hs (.refl _) le_rfl fun hrevokes o l i ho hl hother hi => ?_
  refine hlogged (fun he => ?_) (hepoch ▸ hrevokes) o l i (hepoch ▸ ho) hl (hlog ▸ hother) hi
  have hnumber := hnext.1
  rw [show (v.get "epoch") = a.chain.epoch from hepoch.symm.trans he] at hnumber
  omega

/-- A re-seed revokes at positions of its log. -/
theorem Reseeded.dated {v : Json} {imported : Import} {c : Chain}
    (h : Reseeded R v imported c a mid b) (hs : Sound R.crypto a.ledger)
    (hL : a.ledger.Dated a.chain.headSeq) (hlogged : a.store.RevokesInLog a.chain b.chain)
    (hdated : a.store.ReseedsDated a.chain b.chain) : b.ledger.Dated b.chain.headSeq := by
  obtain ⟨hparameters, hepoch⟩ := h.terms
  have hok := reseedCheck_ok h.checked
  have hnext := h.succeeds
  obtain ⟨hwelcome, hnoted⟩ := hdated (by
    rw [Chain.generation, hparameters, hok.generation]
    exact Nat.succ_ne_self _)
  have hfree := h.fresh hs
  obtain ⟨rs, w, w', hw, hw', hadopt⟩ := h.adoption
  obtain ⟨notice, rfl⟩ := h.chain
  have hstart : Sound R.crypto w.cell.ledger := by
    rw [hw]
    exact hs.steps (.single (.reincarnate hok.chainId hfree))
  obtain ⟨M₀, M, M', entry, r, done, hpar, hcommit, -, hcomp⟩ := h.moves
  have hadopted : Dates R.crypto b.chain.headSeq w.cell.ledger mid.ledger :=
    hw' ▸ adoption_dates (fun _ hk => hk) hadopt hstart (by rw [hw]; exact hwelcome)
  have hfirst : Dates R.crypto b.chain.headSeq w.cell.ledger M₀ :=
    hadopted.trans ⟨_, by simp [Move.dates], hpar⟩
  have hlast : Dates R.crypto b.chain.headSeq done.ledger b.ledger :=
    ⟨_, by simp [Move.dates], hcomp⟩
  have hsound : Sound R.crypto M₀ := by
    obtain ⟨ms, -, hsteps⟩ := hfirst
    exact hstart.steps hsteps
  have hlog : b.chain.logId = w.cell.ledger.chain.logId := by
    obtain ⟨N, hN, hdone⟩ := hcommit.split
    have hrow : done.ledger.chain.logId = M₀.chain.logId := by
      rw [hdone]
      exact hN.sameTerms.logId
    exact hlast.placements.logId.trans (hrow.trans hfirst.placements.logId)
  have hcommitted := hcommit.dated hsound hfirst.placements hlast.placements.headSeq
    fun hrevokes o l i ho hl hother hi => by
      rw [hw] at ho
      refine hlogged (fun he => ?_) (hepoch ▸ hrevokes) o l i (hepoch ▸ ho) hl (hlog ▸ hother) hi
      have hnumber := hnext.number
      rw [← hepoch, he] at hnumber
      omega
  refine (hfirst.trans (hcommitted.trans hlast)).dated fun id row hrow hrevoked => ?_
  rw [hw] at hrow
  obtain ⟨q, hq, -⟩ := hL id row hrow hrevoked
  exact ⟨q, hq, hnoted row (Table.mem_of_find? hrow) q hq⟩

/-- What keeps the revocations dated. -/
theorem Act.dated (h : Act R cause a b) (hs : Sound R.crypto a.ledger)
    (hL : a.ledger.Dated a.chain.headSeq) (hlogged : a.store.RevokesInLog a.chain b.chain)
    (hdated : a.store.ReseedsDated a.chain b.chain) : b.ledger.Dated b.chain.headSeq := by
  have kept (hd : Dates R.crypto b.chain.headSeq a.ledger b.ledger) :
      b.ledger.Dated b.chain.headSeq := hd.dated (hL.mono hd.placements.headSeq)
  have moved {ms : List Move} {b' : Cell} (hm : Moves R.crypto ms a b')
      (hb : b.ledger = b'.ledger) (hms : ∀ m ∈ ms, m.dates b.chain.headSeq) :
      b.ledger.Dated b.chain.headSeq := kept (hb ▸ hm.dates hms)
  cases h with
  | still h => exact kept (h.ledger ▸ .refl _)
  | imported _ h hstill =>
      refine kept (hstill.ledger ▸ h.path.dates fun m M hq => ?_)
      cases m with
      | stage kind v => trivial
      | _ => exact hq.elim
  | item _ h =>
      cases h with
      | envelope _ _ hm | repair _ _ hm | part _ _ hm | record _ _ _ _ _ hm =>
          exact moved hm rfl (by simp [Move.dates])
  | evidence hms h =>
      refine moved h rfl fun m hm => ?_
      have hev := hms m hm
      cases m with
      | evidence op digest => trivial
      | _ => exact hev.elim
  | expired h =>
      refine moved h rfl fun m hm => ?_
      obtain ⟨_, -, rfl⟩ := List.mem_map.mp hm
      trivial
  | mutated _ _ h hdel =>
      cases h with
      | still h => exact kept (h.ledger ▸ .refl _)
      | enrolled _ h hst =>
          refine moved h.moves hst.ledger fun m hm => ?_
          simp only [List.cons_append, List.mem_cons, List.mem_append, List.mem_map] at hm
          obtain rfl | ⟨_, -, rfl⟩ | ⟨_, -, rfl⟩ := hm
          · simp [Move.dates]
          · trivial
          · trivial
      | rotated _ h => exact kept (h.dates hs hlogged)
      | acknowledged _ h => exact moved h.moves rfl (by simp [Move.dates])
      | snapshotted _ h => exact moved h.moves rfl (by simp [Move.dates])
      | pruned _ _ h =>
          refine kept ((h.first.dates (by simp [Move.dates])).trans
            (h.second.dates fun m hm => ?_))
          simp only [List.mem_append, List.mem_map, List.mem_singleton] at hm
          obtain (⟨_, -, rfl⟩ | ⟨_, -, rfl⟩) | rfl := hm <;> trivial
      | reseeded _ _ h => exact h.dated hs hL hlogged hdated
      | deleted _ hd _ _ =>
          rw [hdel] at hd
          cases hd

end Acts

/-! ## Along a run -/

/-- All revocations are dated, in the log of the chain. -/
def Store.Dated (st : Store) : Prop :=
  st.deletion = none → ∀ c, st.chain = some c → (st.ledger c).Dated c.headSeq

/-- An epoch that the step commits and a re-seed that it makes leave no
revocation without a position in the log. -/
def DatesRevocations (X : Crypto) (id : String) (w : World) (ev : Event) : Prop :=
  ∀ c c', (w.store id).chain = some c → ((w.step X ev).store id).chain = some c' →
    (w.store id).RevokesInLog c c' ∧ (w.store id).ReseedsDated c c'

section Runs

variable {X : Crypto} {R : Relay} {cfg : RelayConfig} {cause : Option Call} {id : String}
  {st st' : Store}

theorem Ledger.Bare.dated {L : Ledger} {k : Nat} (h : L.Bare) : L.Dated k := fun id row hrow => by
  rw [h.registry] at hrow
  cases hrow

theorem Begun.dated {v : Json} {c : Chain} {b : Cell} (h : Begun R v c st.cell b)
    (hb : (st.ledger c).Bare) : b.ledger.Dated b.chain.headSeq := by
  obtain ⟨logId, tid, notice, hc⟩ := h.chain
  obtain ⟨M₀, M, M', M₁, entry, r, ms, hpar, hcommit, hms, hrest⟩ := h.moves
  have hsound : Sound R.crypto (st.ledger c) := Sound.found hb (by rw [hc]; rfl)
  have hfirst : Dates R.crypto b.chain.headSeq (st.ledger c) M₀ := ⟨_, by simp [Move.dates], hpar⟩
  have hlast : Dates R.crypto b.chain.headSeq M₁ b.ledger := ⟨_, fun m hm => by
    have hev := hms m hm
    cases m with
    | evidence op digest => trivial
    | _ => exact hev.elim, hrest⟩
  have hcommitted := hcommit.dated (hsound.steps hpar) hfirst.placements
    hlast.placements.headSeq fun _ o l i ho => by
      rw [hb.objects] at ho
      cases ho
  exact (hfirst.trans (hcommitted.trans hlast)).dated hb.dated

theorem Acted.dated (h : Acted R id cause st st') (hdel : st.deletion = none)
    (hs : st.Holds (Settled R.crypto id)) (hst : st.Dated)
    (hc : ∀ c c', st.chain = some c → st'.chain = some c' →
      st.RevokesInLog c c' ∧ st.ReseedsDated c c') : st'.Dated := by
  intro _ c' hc'
  cases h with
  | absent _ hnone _ =>
      rw [hnone] at hc'
      cases hc'
  | @begun call c b hnone _ _ hbegun _ hstored hledger =>
      obtain rfl := Option.some.inj (hstored.symm.trans hc')
      have hbare := hs.bare hdel hnone
      rw [hledger]
      exact hbegun.dated ⟨hbare.objects, hbare.registry, hbare.log, hbare.receipts,
        hbare.transparency, hbare.handoffs⟩
  | @staged call mid b hnone _ _ himp hstaged _ hstored hledger =>
      obtain rfl := Option.some.inj (hstored.symm.trans hc')
      have hbare := hs.bare hdel hnone
      rw [hledger, hstaged.ledger]
      have hstart : st.cell.ledger.Dated b.chain.headSeq := Ledger.Bare.dated
        ⟨hbare.objects, hbare.registry, hbare.log, hbare.receipts, hbare.transparency,
          hbare.handoffs⟩
      exact (himp.path.dates fun m M hq => by
        cases m with
        | stage kind v => trivial
        | _ => exact hq.elim).dated hstart
  | acted hthere hact hstored hledger =>
      obtain rfl := Option.some.inj (hstored.symm.trans hc')
      obtain ⟨hlogged, hdated⟩ := hc _ _ hthere hstored
      rw [hledger]
      exact hact.dated (hs.ledger hdel hthere).sound (hst hdel _ hthere) hlogged hdated

theorem store_dated {es : List Event}
    (hes : StepsMeet (World.step X) (DatesRevocations X id) (World.initial cfg) es) :
    (storeAfter X cfg es id).Dated := by
  refine store_invariant_of (Q := Store.Dated) (fun _ _ hc => by cases hc)
    (fun w ev hb hs hC hQ hdel => ?_) hes
  obtain ⟨hbefore, hsame | ⟨cause, hacted, -⟩⟩ := step_acted X hb ev id hdel
  · rw [hsame] at hdel ⊢
    exact hQ hdel
  · exact hacted.dated hbefore hs hQ hC hdel

end Runs

/-! ## What is listed -/

/-- A device is shown as revoked if and only if a position is shown with it. -/
def ConsistentDevice (item : Json) : Prop :=
  item.get "status" = .str "revoked" ↔ item.get "revoked_seq" ≠ .null

theorem Status.text_revoked {t : Status} : t.text = "revoked" ↔ t = .revoked := by
  cases t <;> decide

/-- An item is consistent where the registry dates the revocation. -/
theorem deviceItem_consistent {cut : Chain} {body : Json} {row : RegistryRow} :
    ConsistentDevice (deviceItem cut body row.enlistment) ↔ row.Dated cut.headSeq := by
  have hstatus : (deviceItem cut body row.enlistment).get "status" = .str
      (if (row.revokedSeq.filter (· ≤ cut.headSeq)).isSome then "revoked" else row.status.text) :=
    rfl
  have hseq : (deviceItem cut body row.enlistment).get "revoked_seq" =
      Json.ofOptionNat (row.revokedSeq.filter (· ≤ cut.headSeq)) := rfl
  rw [ConsistentDevice, hstatus, hseq, RegistryRow.Dated]
  cases hfilter : row.revokedSeq.filter (· ≤ cut.headSeq) with
  | some q =>
      obtain ⟨hq, hle⟩ := Option.filter_eq_some_iff.mp hfilter
      have hdated : row.status = .revoked → ∃ q, row.revokedSeq = some q ∧ q ≤ cut.headSeq :=
        fun _ => ⟨q, hq, of_decide_eq_true hle⟩
      simpa [Json.ofOptionNat] using hdated
  | none =>
      have hundated : ¬∃ q, row.revokedSeq = some q ∧ q ≤ cut.headSeq := by
        rintro ⟨q, hq, hle⟩
        rw [hq, Option.filter_some, if_pos (decide_eq_true hle)] at hfilter
        cases hfilter
      simp [Json.ofOptionNat, hundated, Status.text_revoked]

section Listed

variable {X : Crypto} {cfg : RelayConfig} {id : String} {es fs : List Event} {call : Call}
  {v : Json} {rest : List (Call × Json)} {c : Chain}

/-- The items of the pages of devices, each with its row of the registry as the
first page found it. -/
theorem Paged.deviceItems (hpaged : Paged X cfg id es ((call, v) :: rest) fs)
    (hroute : call.route = .devices) (hfirst : query call.query "cursor" = none)
    (hc : (storeAfter X cfg es id).chain = some c) :
    ∀ item ∈ ((call, v) :: rest).flatMap (a ·.2 "items"), ∃ row body,
      (storeAfter X cfg es id).registry.find? (s body "device_id") = some row ∧
      item = deviceItem c body row.enlistment := by
  obtain ⟨hsettled, hversioned, -, hpages⟩ := hpaged.objectPages (by rw [hroute]; rfl) hfirst hc
  rw [hroute] at hpages
  obtain ⟨parts, -, hlists, -⟩ := hpages.listed
  have hitems : List.Forall₂ (fun item (_ : ObjectRow) => (∃ row body,
      (storeAfter X cfg es id).registry.find? (s body "device_id") = some row ∧
      item = deviceItem c body row.enlistment) ∧ True)
      (((call, v) :: rest).flatMap (a ·.2 "items")) parts.flatten := by
    refine ((hlists.deviceRows hversioned).imp fun r item hshown => ⟨?_, trivial⟩).flip
    obtain ⟨row, hrow, hr, rfl⟩ := hshown
    obtain ⟨body, hbody, hid⟩ := hsettled.sound.device_body hr
    rw [hbody]
    exact ⟨row, body, by rw [hid]; exact hrow, rfl⟩
  exact ((List.forall₂_and_left _ _).mp hitems).1

end Listed

/-- A device that is listed is shown as revoked together with a position exactly
where the registry, as the first page found it, has for its revocation a position
of the log. After a run in which each revocation got one, this is so for all. -/
theorem listed_revocations_dated (X : Crypto) (cfg : RelayConfig) (id : String)
    {es fs : List Event} {call : Call} {v : Json} {rest : List (Call × Json)}
    (hpaged : Paged X cfg id es ((call, v) :: rest) fs) (hroute : call.route = .devices)
    (hfirst : query call.query "cursor" = none) {c : Chain}
    (hc : (storeAfter X cfg es id).chain = some c) :
    (∀ item ∈ ((call, v) :: rest).flatMap (a ·.2 "items"), ∃ row,
      (storeAfter X cfg es id).registry.find? (s (item.get "device_record") "device_id") =
        some row ∧ (ConsistentDevice item ↔ row.Dated c.headSeq)) ∧
    (StepsMeet (World.step X) (DatesRevocations X id) (World.initial cfg) es →
      ∀ item ∈ ((call, v) :: rest).flatMap (a ·.2 "items"), ConsistentDevice item) := by
  refine ⟨fun item hitem => ?_, fun hes item hitem => ?_⟩
  · obtain ⟨row, body, hrow, rfl⟩ := hpaged.deviceItems hroute hfirst hc item hitem
    exact ⟨row, hrow, deviceItem_consistent⟩
  · obtain ⟨row, body, hrow, rfl⟩ := hpaged.deviceItems hroute hfirst hc item hitem
    have hdel := hpaged.live (by rw [hroute]; rfl)
    exact deviceItem_consistent.mpr (store_dated hes hdel c hc _ row hrow)

namespace Sample

/-- `DatesRevocations` of `chainId`, checked. -/
def datesRevocations (w : World) (ev : Event) : Bool :=
  (w.store chainId).chain.all fun c => ((w.step crypto ev).store chainId).chain.all fun c' =>
    (decide (c'.epoch = c.epoch) || ((w.store chainId).objects.find?
      (.epoch, toString (n c'.epoch "epoch"))).all (·.logId.isNone)) &&
    (decide (c'.generation = c.generation) || ((stagedIds (w.store chainId) .device).isEmpty &&
      (w.store chainId).registry.rows.all (·.revokedSeq.all (· ≤ c'.headSeq))))

theorem datesRevocations_meets {w : World} {ev : Event} (h : datesRevocations w ev = true) :
    DatesRevocations crypto chainId w ev := by
  intro c c' hc hc'
  rw [datesRevocations, hc, Option.all_some, hc', Option.all_some, Bool.and_eq_true,
    Bool.or_eq_true, Bool.or_eq_true, decide_eq_true_eq, decide_eq_true_eq] at h
  obtain ⟨hlogged, hdated⟩ := h
  constructor
  · intro hne _ o l i ho hl
    have hnone := hlogged.resolve_left hne
    rw [ho, Option.all_some, hl] at hnone
    cases hnone
  · intro hne
    obtain ⟨hempty, hrows⟩ := Bool.and_eq_true_iff.mp (hdated.resolve_left hne)
    refine ⟨fun id hid => ?_, fun row hrow q hq => ?_⟩
    · rw [List.isEmpty_iff.mp hempty] at hid
      cases hid
    · have hle := List.all_eq_true.mp hrows row hrow
      rw [hq, Option.all_some, decide_eq_true_eq] at hle
      exact hle

/-- The devices are listed after `reseedRun`. -/
def listedRun : List Event :=
  reseedRun [newPart] ++
    [.request (readRequest .devices 10 devicesPath "" [("limit", "100")]) (oracle 1500 30)]

/-- Task `i` answers with a page of devices. -/
def devicesPage (es : List Event) (i : Nat) (p : Json → Bool) : Bool :=
  (storeAfter crypto cfg es chainId).chain.isSome &&
    (replies (World.after crypto cfg es) i (oracle 1500 31)).any fun x =>
      decide (x.1.chain = chainId) && decide (x.1.route = .devices) &&
        decide (query x.1.query "cursor" = none) && (a x.2 "items").any p

theorem devicesPage_some {es : List Event} {i : Nat} {p : Json → Bool}
    (h : devicesPage es i p = true) : ∃ c call v item fs,
      (storeAfter crypto cfg es chainId).chain = some c ∧
      Paged crypto cfg chainId es [(call, v)] fs ∧ call.route = .devices ∧
      query call.query "cursor" = none ∧ item ∈ a v "items" ∧ p item = true := by
  simp only [devicesPage, Bool.and_eq_true, Option.any_eq_true, List.any_eq_true,
    decide_eq_true_eq] at h
  obtain ⟨hsome, ⟨call, v⟩, hx, ⟨⟨hchain, hroute⟩, hfirst⟩, item, hitem, hp⟩ := h
  obtain ⟨c, hc⟩ := Option.isSome_iff_exists.mp hsome
  exact ⟨c, call, v, item, _, hc, .last (hchain ▸ replied hx), hroute, hfirst, hitem, hp⟩

theorem listedRun_facts :
    (stepsAll (World.step crypto) datesRevocations (.initial cfg) listedRun &&
      devicesPage listedRun 4 fun item => decide (item.get "status" = .str "revoked")) = true := by
  decide +kernel

/-- A chain on which the second device was revoked comes from another relay. -/
def migrationImport : Request :=
  request .importChain "POST" importPath (token 3 none "POST" importPath) ""
    ((importBody [epoch0, revocationBundle.get "epoch"]).set "device_history"
      (.arr [device 1 0 0, device 2 0 0]))

def recoveryM : Json := envelope 90 1 2 (hashOf (revocationBundle.get "epoch")) none

/-- The epoch under which a third device goes on with it. -/
def epochM : Json :=
  epochRecord 1 2 (hashOf (revocationBundle.get "epoch")) "reseed" [3] [1] recoveryM

def partM : Json := recordBy 3 80 1 2 5

def migrationBundle (log : String) : Json := .obj [
  ("compaction", ((compactionR log [partM]).set "device_id" (.str (uid 3))).set "epoch_hash"
    (hashOf epochM)),
  ("device_records", .arr [device 3 1 2]),
  ("envelopes", .arr [envelope 91 1 2 (hashOf (revocationBundle.get "epoch")) (some 3),
    recoveryM]),
  ("epoch", epochM), ("parameters", parameters 1 (hashOf (parameters 0 .null)))]

def migrationReseed (log : String) : Request :=
  request .reseed "PUT" parametersPath (token 5 none "PUT" parametersPath) ""
    ((migrationBundle log).set "admin_operation" (adminOp 93 "reseed" 0 (parameters 0 .null)
      (revocationBundle.get "epoch") (migrationBundle log)))

/-- The chain is imported and re-seeded, and its devices are listed. -/
def migrationRun : List Event :=
  perform 0 0 migrationImport ++ upload 1 2 1 (partsRequest 4 [partM]) ++
    perform 2 9 (migrationReseed (uid 10006)) ++
    [.request (readRequest .devices 10 devicesPath "" [("limit", "100")]) (oracle 1500 30)]

theorem migrationRun_facts : (devicesPage migrationRun 3 fun item =>
    decide (item.get "status" = .str "revoked") &&
      decide (item.get "revoked_seq" = .null)) = true := by
  decide +kernel

end Sample

/-- The device that a re-seed revokes is listed with the position. -/
theorem listed_revocations_dated_reseed : ∃ call v item fs,
    Paged Sample.crypto Sample.cfg Sample.chainId Sample.listedRun [(call, v)] fs ∧
    item ∈ a v "items" ∧ item.get "status" = .str "revoked" ∧ item.get "revoked_seq" ≠ .null := by
  obtain ⟨hmeet, hpage⟩ := Bool.and_eq_true_iff.mp Sample.listedRun_facts
  obtain ⟨c, call, v, item, fs, hc, hpaged, hroute, hfirst, hitem, hrevoked⟩ :=
    Sample.devicesPage_some hpage
  have hstatus : item.get "status" = .str "revoked" := of_decide_eq_true hrevoked
  have hall := (listed_revocations_dated Sample.crypto Sample.cfg Sample.chainId hpaged hroute
    hfirst hc).2 (stepsMeet_of_all (fun _ _ => Sample.datesRevocations_meets) hmeet)
  have hconsistent : ConsistentDevice item :=
    hall item (List.mem_flatMap.mpr ⟨(call, v), List.mem_singleton_self _, hitem⟩)
  exact ⟨call, v, item, fs, hpaged, hitem, hstatus, hconsistent.mp hstatus⟩

/-- A device that was revoked on the other relay is listed as revoked without a
position, once the chain is re-seeded here. -/
theorem undated_revocation : ∃ es fs call v item,
    Paged Sample.crypto Sample.cfg Sample.chainId es [(call, v)] fs ∧ call.route = .devices ∧
    item ∈ a v "items" ∧ item.get "status" = .str "revoked" ∧ item.get "revoked_seq" = .null ∧
    ¬ConsistentDevice item := by
  obtain ⟨c, call, v, item, fs, -, hpaged, hroute, -, hitem, hshown⟩ :=
    Sample.devicesPage_some Sample.migrationRun_facts
  obtain ⟨hstatus, hseq⟩ := Bool.and_eq_true_iff.mp hshown
  have hstatus := of_decide_eq_true hstatus
  have hseq := of_decide_eq_true hseq
  exact ⟨_, fs, call, v, item, hpaged, hroute, hitem, hstatus, hseq,
    fun h => h.mp hstatus hseq⟩

end PallaSync
