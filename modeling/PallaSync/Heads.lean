import PallaSync.Erasure
import PallaSync.Origins
import PallaSync.Parts

/-!
# Published heads

A transaction that writes the chain row publishes its head under the
transparency index, unless one is published there already. So the head tells
the truth as long as every transaction that changes what it repeats of the row
(`Chain.cut`) also adds evidence. All do, but for a rotation to an epoch that
is logged already, with envelopes that are (`LogsAnew` excludes it): the epoch
of the row changes, and its head does not.
-/

namespace PallaSync

open Atomic Machine

/-! ## What a head repeats -/

/-- The fields of the chain row that its head repeats. -/
def Chain.cut (X : Crypto) (c : Chain) :
    String × String × Nat × String × String × String × Nat :=
  (c.transparencyHash, c.logId, c.headSeq, c.headHash, c.parametersHash X, c.epochHash X,
    c.minAvailableSeq)

def Head.cut (h : Head) : String × String × Nat × String × String × String × Nat :=
  (h.transparencyHash, h.logId, h.headSeq, h.headHash, h.parametersHash, h.epochHash,
    h.minAvailableSeq)

/-- A head names the chain and the index of the row it repeats, under the
relay's signature. -/
structure Head.Signs (X : Crypto) (c : Chain) (h : Head) : Prop where
  chainId : h.chainId = c.chainId
  transparencyId : h.transparencyId = c.transparencyId
  entryIndex : h.entryIndex = c.transparencyIndex
  signed : X.signRelay { h with relaySignature := "" }.body .head = some h.relaySignature

/-- The chain row went on: to a later index, or it is as it was, and nothing
was accepted. -/
structure Advances (X : Crypto) (L L' : Ledger) : Prop where
  transparencyId : L'.chain.transparencyId = L.chain.transparencyId
  index : L.chain.transparencyIndex < L'.chain.transparencyIndex ∨
    L'.chain.transparencyIndex = L.chain.transparencyIndex ∧ L'.chain.cut X = L.chain.cut X ∧
      L'.receipts = L.receipts

/-- Only the index is certain to go on. -/
structure Mounts (L L' : Ledger) : Prop where
  transparencyId : L'.chain.transparencyId = L.chain.transparencyId
  index : L.chain.transparencyIndex ≤ L'.chain.transparencyIndex

/-- The moves that change a chain row without evidence of it. -/
def Move.tacit : Move → Bool
  | .setEpoch _ | .prune .. | .found _ | .reincarnate .. => true
  | _ => false

/-- The object a move accepts. -/
def Move.object? : Move → Option (Kind × Json)
  | .log kind v => some (kind, v)
  | .enlist _ d => some (.device, d)
  | _ => none

section Moves

variable {X : Crypto} {L M L' : Ledger}

theorem Advances.refl (L : Ledger) : Advances X L L := ⟨rfl, .inr ⟨rfl, rfl, rfl⟩⟩

theorem Advances.of_eq (hc : L'.chain = L.chain) (hr : L'.receipts = L.receipts) :
    Advances X L L' :=
  ⟨by rw [hc], .inr ⟨by rw [hc], by rw [hc], hr⟩⟩

theorem Advances.of_lt (ht : L'.chain.transparencyId = L.chain.transparencyId)
    (h : L.chain.transparencyIndex < L'.chain.transparencyIndex) : Advances X L L' :=
  ⟨ht, .inl h⟩

theorem Advances.trans (h : Advances X L M) (h' : Advances X M L') : Advances X L L' := by
  refine ⟨h'.transparencyId.trans h.transparencyId, ?_⟩
  rcases h.index with hlt | ⟨he, hcut, hrec⟩
  · rcases h'.index with hlt' | ⟨he', -⟩
    · exact .inl (by omega)
    · exact .inl (by omega)
  · rcases h'.index with hlt' | ⟨he', hcut', hrec'⟩
    · exact .inl (by omega)
    · exact .inr ⟨he'.trans he, hcut'.trans hcut, hrec'.trans hrec⟩

theorem Advances.mounts (h : Advances X L L') : Mounts L L' := by
  refine ⟨h.transparencyId, ?_⟩
  rcases h.index with hlt | ⟨he, -⟩ <;> omega

theorem Mounts.trans (h : Mounts L M) (h' : Mounts M L') : Mounts L L' :=
  ⟨h'.transparencyId.trans h.transparencyId, Nat.le_trans h.index h'.index⟩

theorem Logged.advances {kind : Kind} {v : Json} {entry : Option LogEntry} {r : Receipt}
    (h : Logged X kind v entry r L L') : Advances X L L' := by
  cases h with
  | again _ => exact .refl L
  | fresh h => exact .of_lt (by rw [h.chain]; rfl) (by rw [h.chain]; exact Nat.lt_succ_self _)

/-- What is accepted for the first time adds evidence. -/
theorem Logged.mounts_of_new {kind : Kind} {v : Json} {entry : Option LogEntry} {r : Receipt}
    (h : Logged X kind v entry r L L') (hnew : L.receipts.find? (kind, objectId v kind) = none) :
    L.chain.transparencyIndex < L'.chain.transparencyIndex := by
  cases h with
  | again h =>
      obtain ⟨rr, hrr, -⟩ := h.receipt
      exact absurd (hnew.symm.trans hrr) (by simp)
  | fresh h =>
      rw [h.chain]
      exact Nat.lt_succ_self _

theorem Witnessed.mounts {op : Operation} {digest : String} (h : Witnessed X op digest L L') :
    L'.chain.transparencyId = L.chain.transparencyId ∧
      L.chain.transparencyIndex < L'.chain.transparencyIndex := by
  obtain ⟨te, -, hc⟩ := h.noted
  rw [hc]
  exact ⟨rfl, Nat.lt_succ_self _⟩

theorem Step.advances {m : Move} (h : Step X m L L') (hm : m.tacit = false) :
    Advances X L L' := by
  cases h with
  | log _ hl => exact hl.advances
  | enlist hl hr => exact hl.advances.trans (.of_eq (by rw [hr.rest]) (by rw [hr.rest]))
  | partAgain => exact .refl L
  | part h => exact .of_lt (by rw [h.chain]; rfl) (by rw [h.chain]; exact Nat.lt_succ_self _)
  | evidence h => exact .of_lt h.mounts.1 h.mounts.2
  | stage _ h => exact .of_eq (by rw [h.rest]) (by rw [h.rest])
  | revoke h | activate h => exact .of_eq (by rw [h.rest]) (by rw [h.rest])
  | handoff _ he => exact .of_eq (by rw [he]) (by rw [he])
  | expire _ hb _ hc => exact .of_eq hc hb.receipts
  | setEpoch | prune _ _ _ _ _ | found _ _ | reincarnate _ _ => cases hm

theorem Step.mounts {m : Move} (h : Step X m L L') (hm : ∀ c, m ≠ .found c) : Mounts L L' := by
  refine ⟨(h.ids hm).2, ?_⟩
  by_cases ht : m.tacit = true
  · cases h with
    | setEpoch | reincarnate _ _ => exact Nat.le_refl _
    | prune _ _ _ _ hc => rw [hc]
    | found _ _ => exact absurd rfl (hm _)
    | log _ _ | enlist _ _ | partAgain | part _ | evidence _ | stage _ _ | revoke _ | activate _
    | handoff _ _ | expire _ _ _ _ => cases ht
  · exact (h.advances (by simpa using ht)).mounts.index

theorem Steps.advances {ms : List Move} (h : Steps X ms L L') (hms : ∀ m ∈ ms, m.tacit = false) :
    Advances X L L' := by
  induction h with
  | nil => exact .refl _
  | cons hm _ ih =>
      exact (hm.advances (hms _ List.mem_cons_self)).trans
        (ih fun m hm => hms m (List.mem_cons_of_mem _ hm))

theorem Steps.mounts {ms : List Move} (h : Steps X ms L L')
    (hms : ∀ m ∈ ms, ∀ c, m ≠ .found c) : Mounts L L' := by
  induction h with
  | nil => exact ⟨rfl, Nat.le_refl _⟩
  | cons hm _ ih =>
      exact (hm.mounts (hms _ List.mem_cons_self)).trans
        (ih fun m hm => hms m (List.mem_cons_of_mem _ hm))

/-- One of the moves accepts an object for the first time: there is evidence. -/
theorem Steps.mounts_of_new {ms : List Move} {kind : Kind} {v : Json} (h : Steps X ms L L')
    (hms : ∀ m ∈ ms, m.tacit = false) (hnew : L.receipts.find? (kind, objectId v kind) = none)
    (hin : ∃ m ∈ ms, m.object? = some (kind, v)) :
    L.chain.transparencyIndex < L'.chain.transparencyIndex := by
  induction h with
  | nil =>
      obtain ⟨m, hm, -⟩ := hin
      cases hm
  | @cons m ms L M L' hm hrest ih =>
      have hafter := (hrest.advances fun m hm => hms m (List.mem_cons_of_mem _ hm)).mounts.index
      rcases (hm.advances (hms _ List.mem_cons_self)).index with hlt | ⟨he, -, hrec⟩
      · omega
      · obtain ⟨m', hm', hobject⟩ := hin
        obtain rfl | hm' := List.mem_cons.mp hm'
        · have hstrict : L.chain.transparencyIndex < M.chain.transparencyIndex := by
            cases hm with
            | log _ hl =>
                cases hobject
                exact hl.mounts_of_new hnew
            | enlist hl hr =>
                cases hobject
                rw [hr.rest]
                exact hl.mounts_of_new hnew
            | partAgain | part _ | evidence _ | stage _ _ | revoke _ | activate _ | handoff _ _
            | expire _ _ _ _ | setEpoch | prune _ _ _ _ _ | found _ _ | reincarnate _ _ =>
                cases hobject
          omega
        · have := ih (fun m hm => hms m (List.mem_cons_of_mem _ hm)) (hrec ▸ hnew)
            ⟨m', hm', hobject⟩
          omega

end Moves

/-! ## What is published -/

/-- Neither the stored chain row nor the heads were written. -/
def headFrame : Frame Work where
  rel w w' := w'.cell.store.heads = w.cell.store.heads ∧ w'.cell.store.chain = w.cell.store.chain
  refl _ := ⟨rfl, rfl⟩
  trans h h' := ⟨h'.1.trans h.1, h'.2.trans h.2⟩

/-- What a transaction does to the stored row and the heads: nothing, or it
stores a row and publishes its cut, unless the index has one. -/
inductive Cuts (X : Crypto) (st st' : Store) : Prop where
  | kept : st'.heads = st.heads → st'.chain = st.chain → Cuts X st st'
  | published {c row} : st'.chain = some c → st'.heads = st.heads.insertIgnore row →
      row.key = (c.transparencyId, c.transparencyIndex) → row.head.cut = c.cut X →
      row.head.Signs X c → Cuts X st st'

section Programs

variable (R : Relay)

theorem headFrame_aside : Aside headFrame where
  still w w' h _ := by
    simp only [Store.aside, Store.mk.injEq] at h
    exact ⟨by simp only [h], by simp only [h]⟩

/-- A statement on the other tables. -/
theorem setStore_heads {f : Store → Store} (hf : ∀ st, (f st).heads = st.heads)
    (hc : ∀ st, (f st).chain = st.chain) : Keeps headFrame (setStore f) := by
  intro w u w' h
  obtain rfl := setStore_ok.mp h
  exact ⟨hf w.cell.store, hc w.cell.store⟩

theorem headFrame_serves (call : Call) : Serves headFrame R call where
  toAside := headFrame_aside
  outcome _ _ w u w' h := by
    obtain ⟨st, hst, rfl⟩ := attempt_ok.mp h
    obtain ⟨tab, -, rfl⟩ := Option.map_eq_some_iff.mp hst
    exact ⟨rfl, rfl⟩
  insertOffer _ _ w u w' h := by
    obtain ⟨st, hst, rfl⟩ := attempt_ok.mp h
    obtain ⟨tab, -, rfl⟩ := Option.map_eq_some_iff.mp hst
    exact ⟨rfl, rfl⟩
  updateOffer _ _ _ := setStore_heads (fun _ => rfl) fun _ => rfl
  imports _ _ := setStore_heads (fun _ => rfl) fun _ => rfl

theorem enrollmentRequest_heads (v : Json) : Keeps headFrame (enrollmentRequest R v) := by
  intro w x w' h
  obtain ⟨row, -, hcell | ⟨-, -, hcell⟩⟩ := enrollmentRequest_ok R h
  · exact ⟨by rw [hcell], by rw [hcell]⟩
  · exact ⟨by rw [hcell]; rfl, by rw [hcell]; rfl⟩

/-- The head that saving publishes repeats the row. -/
theorem save_cut {w w' : Work} {u : Unit} (h : save R w = .ok (u, w')) :
    ∃ row : HeadRow, row.key = (w.cell.chain.transparencyId, w.cell.chain.transparencyIndex) ∧
      row.head.cut = w.cell.chain.cut R.crypto ∧ row.head.Signs R.crypto w.cell.chain ∧
      w'.cell.store.chain = some w.cell.chain ∧
      w'.cell.store.heads = w.cell.store.heads.insertIgnore row := by
  simp only [save, bind_ok, chain_ok, setStore_ok, now_ok, require_ok, check_ok] at h
  obtain ⟨_, _, ⟨rfl, rfl⟩, _, _, rfl, _, _, ⟨-, rfl⟩, signature, _, ⟨hsign, rfl⟩, _, _, rfl, -,
    rfl⟩ := h
  refine ⟨⟨_, _, { Head.mk _ _ _ _ _ _ _ _ _ _ _ _ "" with relaySignature := signature }⟩, rfl,
    rfl, ⟨rfl, rfl, rfl, hsign⟩, rfl, rfl⟩

/-- A program that saves once at most publishes one cut at most. -/
theorem cuts_of_keeps {α : Type} {m : Tx α} (hm : KeepsBut headFrame (save R) m) {o : Oracle}
    {st : Store} {x : α} {b : Cell} (h : m.run o st = .ok (x, b)) : Cuts R.crypto st b.store := by
  obtain ⟨w, w', hw, hrun, rfl⟩ := run_ok h
  have hstart : w.cell.store = st := congrArg Cell.store hw
  obtain ⟨hheads, hchain⟩ | ⟨u, v, ⟨hheads, -⟩, hsave, hafter, hafter'⟩ := hm _ _ _ hrun
  · exact .kept (hheads.trans (by rw [hstart])) (hchain.trans (by rw [hstart]))
  · obtain ⟨row, hkey, hcut, hsigns, hstored, hrow⟩ := save_cut R hsave
    refine .published (hafter'.trans hstored) ?_ hkey hcut hsigns
    rw [hafter, hrow, hheads, hstart]

end Programs

section Steps

variable {X : Crypto} {w : World} {id : String} {ev : Event} {st st' : Store}

theorem Cuts.of_eq (h : st' = st) : Cuts X st st' := .kept (by rw [h]) (by rw [h])

/-- What a step publishes. -/
theorem Txn.cuts (h : Txn X w id ev st') : Cuts X (w.store id) st' := by
  have hA := headFrame_aside
  cases h with
  | kept => exact .of_eq rfl
  | executed ht hid =>
      obtain he | ⟨reply, b, -, hrun, he⟩ := stepExecute_run (w.relay X) _ _ (w.store id)
      · exact .of_eq he
      · rw [he]
        exact cuts_of_keeps (w.relay X) (headFrame_serves _ _).executeTx hrun
  | item ht hid hrem =>
      obtain he | ⟨x, b, -, hrun, he⟩ := stepItem_run (w.relay X) _ _ _ _ _ _ (w.store id)
      · exact .of_eq he
      · rw [he]
        exact cuts_of_keeps (w.relay X)
          (hA.uploadItem _ _ _ _ (setStore_heads (fun _ => rfl) fun _ => rfl)) hrun
  | itemAudit ht _ =>
      unfold stepItemAudit
      split
      · exact .of_eq rfl
      · split
        · exact .of_eq rfl
        · split
          · exact .of_eq rfl
          · rename_i hrun
            exact cuts_of_keeps (w.relay X) (hA.auditReject _ _ _) hrun
  | audit ht _ =>
      unfold stepAudit
      split
      · exact .of_eq rfl
      · split
        · exact .of_eq rfl
        · rename_i hrun
          exact cuts_of_keeps (w.relay X) (hA.auditReject _ _ _) hrun
  | erased _ =>
      unfold Store.erase
      split
      · exact .kept rfl rfl
      · exact .of_eq rfl
  | finished _ h =>
      unfold Store.finish at h
      split at h
      · exact .of_eq (Except.ok.inj h).symm
      · split at h
        · obtain ⟨_, -, h⟩ := Check.bind_ok.mp h
          obtain rfl := Check.pure_ok.mp h
          exact .kept rfl rfl
        · exact .of_eq (Except.ok.inj h).symm
  | notice _ h =>
      unfold World.noticeStore at h
      split at h
      · obtain ⟨⟨u, b⟩, hrun, h⟩ := Check.bind_ok.mp h
        obtain rfl := Check.pure_ok.mp h
        exact cuts_of_keeps (w.relay X) (hA.notice _) hrun
      · exact .of_eq (Except.ok.inj h).symm
  | enrollment _ h =>
      refine cuts_of_keeps (w.relay X) (.of_keeps ?_) h
      exact .bind (.lift _) fun _ => .bind (hA.look _) fun _ => .bind (.failIf _ _) fun _ =>
        .bind (.require _ _) fun _ => .bind (.failIf _ _) fun _ =>
        .bind (enrollmentRequest_heads _ _) fun _ =>
        .bind (hA.check _) fun _ => .pure _
  | expired h =>
      unfold World.expireStore at h
      split at h
      · exact .of_eq (Except.ok.inj h).symm
      · split at h
        · exact .of_eq (Except.ok.inj h).symm
        · obtain ⟨⟨u, b⟩, hrun, h⟩ := Check.bind_ok.mp h
          obtain rfl := Check.pure_ok.mp h
          exact cuts_of_keeps (w.relay X) (.of_keeps (.bind hA.expire fun _ => hA.check _)) hrun

end Steps

/-! ## The row goes on -/

/-- A later row of a chain: its index is later, or nothing its head repeats
changed. -/
structure Chain.Advances (X : Crypto) (c c' : Chain) : Prop where
  transparencyId : c'.transparencyId = c.transparencyId
  index : c.transparencyIndex < c'.transparencyIndex ∨
    c'.transparencyIndex = c.transparencyIndex ∧ c'.cut X = c.cut X

/-- The objects a rotation accepts. -/
def EpochCommit.objects (commit : EpochCommit) : List (Kind × Json) :=
  commit.staged.map (.device, ·) ++ commit.envelopes.map (.envelope, ·) ++
    commit.admin.toList.map (.admin, ·) ++ [(.epoch, commit.epoch)]

/-- Of the objects of a rotation that is accepted, one was not accepted before. -/
def Call.LogsAnew (R : Relay) (call : Call) (a : Cell) : Prop :=
  call.route = .epochsPost ∨ call.route = .revoke →
    epochCheck R a.store a.chain call.auth call.value call.targetDevice = .ok () →
    ∃ q ∈ (epochCommit call.value).objects, a.store.receipts.find? (q.1, objectId q.2 q.1) = none

section Rows

variable {R : Relay} {X : Crypto} {a b mid : Cell} {call : Call} {c c' : Chain} {L L' : Ledger}

theorem Chain.Advances.refl (c : Chain) : c.Advances X c := ⟨rfl, .inr ⟨rfl, rfl⟩⟩

theorem Chain.Advances.of_lt (ht : c'.transparencyId = c.transparencyId)
    (h : c.transparencyIndex < c'.transparencyIndex) : c.Advances X c' := ⟨ht, .inl h⟩

theorem Advances.chain (h : Advances X L L') : L.chain.Advances X L'.chain :=
  ⟨h.transparencyId, h.index.imp_right fun h => ⟨h.1, h.2.1⟩⟩

theorem Steps.row {ms : List Move} (h : Steps X ms a.ledger b.ledger)
    (hms : ∀ m ∈ ms, m.tacit = false) : a.chain.Advances X b.chain :=
  (h.advances hms).chain

theorem Move.tacit_of_logs {m : Move} (h : m.logs = true) : m.tacit = false := by
  cases m <;> first | rfl | cases h

/-- Moves that write the log add evidence, or do nothing and admit nobody. -/
theorem Steps.rises {ms : List Move} (h : Steps X ms L L') (hms : ∀ m ∈ ms, m.logs = true)
    (henr : L.Enrolled) : L.chain.transparencyIndex < L'.chain.transparencyIndex ∨
      L' = L ∧ ∀ m ∈ ms, m.admits = false := by
  induction h with
  | nil => exact .inr ⟨rfl, by simp⟩
  | @cons m ms L M L' hm hrest ih =>
      have htail : ∀ m ∈ ms, m.logs = true := fun m hm => hms m (List.mem_cons_of_mem _ hm)
      have hafter := (hrest.advances fun m hm => Move.tacit_of_logs (htail m hm)).mounts.index
      have hfirst : L.chain.transparencyIndex < M.chain.transparencyIndex ∨
          M = L ∧ m.admits = false := by
        have hlogs := hms m List.mem_cons_self
        cases hm with
        | log _ hl =>
            cases hl with
            | again _ => exact .inr ⟨rfl, rfl⟩
            | fresh hf => exact .inl (by rw [hf.chain]; exact Nat.lt_succ_self _)
        | enlist hl hr =>
            obtain ⟨e, te, -, hf⟩ := henr.fresh hl hr
            exact .inl (by rw [hr.rest, hf.chain]; exact Nat.lt_succ_self _)
        | partAgain | part _ | evidence _ | stage _ _ | revoke _ | activate _ | setEpoch
        | prune _ _ _ _ _ | handoff _ _ | expire _ _ _ _ | found _ _ | reincarnate _ _ =>
            cases hlogs
      rcases hfirst with hlt | ⟨rfl, hadm⟩
      · exact .inl (by omega)
      · exact (ih htail henr).imp_right fun ⟨he, hadm'⟩ =>
          ⟨he, List.forall_mem_cons.mpr ⟨hadm, hadm'⟩⟩

theorem EpochCommit.object_moves {commit : EpochCommit} {q : Kind × Json}
    (h : q ∈ commit.objects) :
    ∃ m ∈ commit.before ++ [Move.log .epoch commit.epoch], m.object? = some q := by
  simp only [EpochCommit.objects, List.mem_append, List.mem_map, List.mem_singleton] at h
  simp only [EpochCommit.before, List.mem_append, List.mem_map, List.mem_singleton]
  rcases h with ((⟨d, hd, rfl⟩ | ⟨e, he, rfl⟩) | ⟨o, ho, rfl⟩) | rfl
  · have hd' : d ∈ sortDevices commit.staged := (List.perm_insertionSort _ _).symm.subset hd
    exact ⟨_, .inl (.inl (.inl ⟨d, hd', rfl⟩)), rfl⟩
  · have he' : e ∈ sortEnvelopes commit.envelopes := (List.perm_insertionSort _ _).symm.subset he
    exact ⟨_, .inl (.inl (.inr ⟨e, he', rfl⟩)), rfl⟩
  · exact ⟨_, .inl (.inr ⟨o, ho, rfl⟩), rfl⟩
  · exact ⟨_, .inr rfl, rfl⟩

/-- A rotation that accepts something anew adds evidence. -/
theorem Rotated.advances {auth : Auth} {v : Json} {target : Option String}
    (h : Rotated R auth v target a b)
    (hnew : ∃ q ∈ (epochCommit v).objects,
      a.store.receipts.find? (q.1, objectId q.2 q.1) = none) :
    a.chain.Advances R.crypto b.chain := by
  obtain ⟨q, hq, hnew⟩ := hnew
  obtain ⟨M, M', entry, r, hc⟩ := h.committed
  have hsteps := hc.before.append (.single (.log rfl hc.logged))
  have htacit : ∀ m ∈ (epochCommit v).before ++ [Move.log .epoch (epochCommit v).epoch],
      m.tacit = false := fun m hm => by
    rcases List.mem_append.mp hm with hm | hm
    · exact Move.tacit_of_logs (EpochCommit.before_logs _ m hm)
    · obtain rfl := List.mem_singleton.mp hm
      rfl
  have hobject : ∃ m ∈ (epochCommit v).before ++ [Move.log .epoch (epochCommit v).epoch],
      m.object? = some (q.1, q.2) := EpochCommit.object_moves hq
  have hlt : a.chain.transparencyIndex < M'.chain.transparencyIndex :=
    hsteps.mounts_of_new htacit hnew hobject
  have hbefore := (hsteps.advances htacit).transparencyId
  have hafter : Mounts M' b.ledger := hc.after.mounts fun m hm c' hc' => by
    simp only [EpochCommit.after, List.mem_append, List.mem_map, List.mem_singleton] at hm
    obtain ⟨_, -, rfl⟩ | rfl := hm <;> cases hc'
  exact .of_lt (hafter.transparencyId.trans hbefore) (Nat.lt_of_lt_of_le hlt hafter.index)

/-- A prune adds evidence of itself. -/
theorem Pruned.advances {v comp : Json} {rows : List HandoffRow} {expired : List Nat}
    (h : Pruned R v comp rows expired a mid b) : a.chain.Advances R.crypto b.chain := by
  obtain ⟨M, hbefore, hlast⟩ := Steps.of_append h.second.steps
  obtain _ | ⟨hw, hnil⟩ := hlast
  obtain _ | _ := hnil
  obtain hw : Witnessed _ _ _ M b.ledger := by
    cases hw with
    | evidence hw => exact hw
  have hfirst : Mounts a.ledger M := (h.first.steps.append hbefore).mounts fun m hm c' hc' => by
    simp only [List.mem_append, List.mem_cons, List.mem_map, List.not_mem_nil, or_false] at hm
    obtain (rfl | rfl) | ⟨_, -, rfl⟩ | ⟨_, -, rfl⟩ := hm <;> cases hc'
  exact .of_lt (hw.mounts.1.trans hfirst.transparencyId)
    (Nat.lt_of_le_of_lt hfirst.index hw.mounts.2)

/-- A re-seed enlists its members. -/
theorem Reseeded.advances {v : Json} {imported : Import} (h : Reseeded R v imported c a mid b)
    (hs : Sound R.crypto a.ledger) : a.chain.Advances R.crypto b.chain := by
  obtain ⟨ms, M, ms', hsteps, hlogs, ⟨m, hm, hadmits⟩, hrest, hfound⟩ := h.opens
  obtain ⟨notice, rfl⟩ := h.chain
  have hafter := hrest.mounts hfound
  have hbefore := (hsteps.advances fun m hm => Move.tacit_of_logs (hlogs m hm)).transparencyId
  obtain hlt | ⟨-, hadm⟩ := hsteps.rises hlogs hs.enrolled
  · exact .of_lt (hafter.transparencyId.trans hbefore) (Nat.lt_of_lt_of_le hlt hafter.index)
  · have := hadm m hm
    rw [hadmits] at this
    cases this

/-- A deletion adds its own entry. -/
theorem Departed.advances (h : Departed R a b) : a.chain.Advances R.crypto b.chain := by
  obtain ⟨ops, M, digest, hops, hw⟩ := h.moves
  have hfirst : Mounts a.ledger M := (hops.advances fun m hm => by
    obtain ⟨op, -, rfl⟩ := List.mem_map.mp hm
    rfl).mounts
  exact .of_lt (hw.mounts.1.trans hfirst.transparencyId)
    (Nat.lt_of_le_of_lt hfirst.index hw.mounts.2)

theorem Mutated.advances (h : Mutated R call a b) (hroute : call.route ≠ .delete)
    (hs : Sound R.crypto a.ledger) (hnew : call.LogsAnew R a) :
    a.chain.Advances R.crypto b.chain := by
  cases h with
  | still h =>
      rw [show b.chain = a.chain from congrArg Ledger.chain h.ledger]
      exact .refl _
  | enrolled _ h hst =>
      rw [show b.chain = _ from congrArg Ledger.chain hst.ledger]
      refine h.moves.steps.row fun m hm => ?_
      simp only [List.cons_append, List.mem_cons, List.mem_append, List.mem_map] at hm
      obtain rfl | ⟨_, -, rfl⟩ | ⟨_, -, rfl⟩ := hm <;> rfl
  | rotated hr h => exact h.advances (hnew hr h.checked)
  | acknowledged _ h => exact h.moves.steps.row (by simp [Move.tacit])
  | snapshotted _ h => exact h.moves.steps.row (by simp [Move.tacit])
  | pruned _ _ h => exact h.advances
  | reseeded _ _ h => exact h.advances hs
  | deleted hr _ _ _ => exact absurd hr hroute

theorem ItemMoved.advances {index : Nat} {r : Json} (h : ItemMoved R call index r a b) :
    a.chain.Advances R.crypto b.chain := by
  cases h with
  | envelope _ _ hm => exact hm.steps.row (by simp [Move.tacit])
  | repair _ _ hm => exact hm.steps.row (by simp [Move.tacit])
  | part _ _ hm => exact hm.steps.row (by simp [Move.tacit])
  | record _ _ _ _ _ hm => exact hm.steps.row (by simp [Move.tacit])

end Rows

/-- The stored row goes on. -/
def Store.Advances (X : Crypto) (st st' : Store) : Prop :=
  ∀ c, st.chain = some c → ∃ c', st'.chain = some c' ∧ c.Advances X c'

section Stores

variable {R : Relay} {X : Crypto} {st st' : Store} {a b mid : Cell} {call : Call}

theorem Store.Advances.of_eq (h : st'.chain = st.chain) : st.Advances X st' :=
  fun c hc => ⟨c, h.trans hc, .refl c⟩

theorem Store.Advances.of_saved {c : Chain} (hc : st.chain = some c)
    (h : c.Advances X mid.chain) (hs : Saved mid b) : st.Advances X b.store := by
  intro c' hc'
  obtain rfl := Option.some.inj (hc.symm.trans hc')
  exact ⟨b.chain, hs.stored, hs.chain ▸ h⟩

theorem Executed.advances (h : Executed R call st.cell b) (hroute : call.route ≠ .delete)
    (hs : ∀ c, st.chain = some c → Sound R.crypto (st.ledger c))
    (hnew : call.LogsAnew R st.cell) : st.Advances R.crypto b.store := by
  cases h with
  | begun _ h =>
      intro c hc
      have hnone : st.chain = none := h.absent
      cases hc.symm.trans hnone
  | repeated _ h | read _ _ h => exact .of_eq h.chain
  | imported _ _ h =>
      rcases h.row with ⟨-, hstill⟩ | ⟨hnone, -⟩
      · exact .of_eq (hstill.chain.trans h.path.unsaved.chain)
      · intro c hc
        have hnone : st.chain = none := hnone
        cases hc.symm.trans hnone
  | mutated _ hadm h hsaved =>
      obtain ⟨c, hc, -⟩ := hadm.stored
      have hcell := Store.cell_of hc
      have hsound : Sound R.crypto st.cell.ledger := hcell ▸ hs c hc
      have hadv := h.advances hroute hsound hnew
      rw [hcell] at hadv
      exact .of_saved hc hadv hsaved

/-- A commit that no request caused. -/
theorem Commit.advances (h : Commit R none st st') : st.Advances R.crypto st' := by
  generalize hcause : (none : Option Call) = cause at h
  cases h with
  | execute | item => cases hcause
  | evidence hsome hms hm hs =>
      obtain ⟨c, hc⟩ := Option.isSome_iff_exists.mp hsome
      rw [Store.cell_of hc] at hm
      refine .of_saved hc (hm.steps.row fun m hmem => ?_) hs
      have := hms m hmem
      cases m <;> first | rfl | exact this.elim
  | enrollment _ h => exact .of_eq h.chain
  | expire _ hm => exact .of_eq hm.chain
  | erase =>
      unfold Store.erase
      split
      · exact .of_eq rfl
      · exact .of_eq rfl
  | finish h =>
      unfold Store.finish at h
      split at h
      · exact .of_eq (by rw [Except.ok.inj h])
      · split at h
        · obtain ⟨_, -, h⟩ := Check.bind_ok.mp h
          obtain rfl := Check.pure_ok.mp h
          exact .of_eq rfl
        · exact .of_eq (by rw [Except.ok.inj h])

end Stores

/-! ## The law of the heads -/

/-- A rotation the step accepts accepts something anew. -/
def LogsAnew (X : Crypto) (id : String) (w : World) (ev : Event) : Prop :=
  ∀ call, w.acting ev = some call → call.chain = id → call.LogsAnew (w.relay X) (w.store id).cell

/-- The stored row has a head, which repeats it; there is no head of a later
index or of another transparency chain. -/
structure HeadLaw (X : Crypto) (st : Store) : Prop where
  unborn : st.chain = none → ∀ q, st.heads.find? q = none
  truthful : ∀ c, st.chain = some c →
    ∃ h, st.heads.find? (c.transparencyId, c.transparencyIndex) = some h ∧ h.head.cut = c.cut X
  earlier : ∀ c, st.chain = some c → ∀ q h, st.heads.find? q = some h →
    q.1 = c.transparencyId ∧ q.2 ≤ c.transparencyIndex

section Law

variable {X : Crypto} {w : World} {id : String} {ev : Event} {st st' : Store}

/-- What a step does to the chain row. -/
theorem Txn.advances (h : Txn X w id ev st') (hs : (w.store id).Holds (Settled X id))
    (hnew : LogsAnew X id w ev) : (w.store id).Advances X st' := by
  have silent : st' = w.store id ∨ Commit (w.relay X) none (w.store id) st' →
      (w.store id).Advances X st' := fun h => by
    obtain rfl | h := h
    · exact .of_eq rfl
    · exact h.advances
  cases h with
  | kept => exact .of_eq rfl
  | executed ht hid =>
      obtain he | ⟨reply, b, hdel, hrun, he⟩ := stepExecute_run (w.relay X) _ _ (w.store id)
      · exact .of_eq (by rw [he])
      · rw [he]
        obtain ⟨u, u', hu, hm, rfl⟩ := run_ok hrun
        have hsound : ∀ c, (w.store id).chain = some c → Sound X ((w.store id).ledger c) :=
          fun c hc => (hs.ledger hdel hc).sound
        by_cases hroute : ∃ call, call.route = .delete ∧
            executeTx (w.relay X) call u = .ok (reply, u')
        · obtain ⟨call, hroute, hm⟩ := hroute
          have hd := executeTx_departs hroute hm
          rw [hu] at hd
          intro c hc
          have hadv := hd.advances
          rw [Store.cell_of hc] at hadv
          exact ⟨u'.cell.chain, hd.saved, hadv⟩
        · have hex := executeTx_ok hm
          rw [hu] at hex
          exact hex.advances (fun hdelete => hroute ⟨_, hdelete, hm⟩) hsound
            (hnew _ (by simp [World.acting, ht, Except.toOption]) hid)
  | item ht hid hrem =>
      obtain he | ⟨mid, b, hsome, -, -, hmoved, hsaved, he⟩ :=
        stepItem_ok (w.relay X) _ _ _ _ _ _ (w.store id)
      · exact .of_eq (by rw [he])
      · rw [he]
        obtain ⟨c, hc⟩ := Option.isSome_iff_exists.mp hsome
        rw [Store.cell_of hc] at hmoved
        exact .of_saved hc hmoved.advances hsaved
  | itemAudit _ _ => exact silent (stepItemAudit_commit _ _ _ _ _ _ _ _)
  | audit _ _ => exact silent (stepAudit_commit _ _ _ _ _)
  | erased _ => exact silent (.inr .erase)
  | finished _ h => exact silent (.inr (.finish h))
  | notice _ h => exact silent (noticeStore_commit h)
  | enrollment _ h => exact silent (.inr (enrollment_commit h))
  | expired h => exact silent (expireStore_commit h)

theorem Cuts.headLaw (h : Cuts X st st') (hadv : st.Advances X st') (hlaw : HeadLaw X st) :
    HeadLaw X st' := by
  cases h with
  | kept hh hc =>
      exact ⟨fun hn => hh ▸ hlaw.unborn (hc ▸ hn), fun c hsome => hh ▸ hlaw.truthful c (hc ▸ hsome),
        fun c hsome => hh ▸ hlaw.earlier c (hc ▸ hsome)⟩
  | @published c row hstored hh hkey hcut _ =>
      have hfind (q : String × Nat) : st'.heads.find? q =
          if q = (c.transparencyId, c.transparencyIndex) then
            some ((st.heads.find? q).getD row) else st.heads.find? q := by
        rw [hh, Table.find?_insertIgnore, hkey]
      refine ⟨fun hn => ?_, fun c₁ hc₁ => ?_, fun c₁ hc₁ q h hq => ?_⟩
      · rw [hstored] at hn
        cases hn
      · obtain rfl := Option.some.inj (hstored.symm.trans hc₁)
        refine ⟨_, (hfind _).trans (if_pos rfl), ?_⟩
        cases hold : st.heads.find? (c.transparencyId, c.transparencyIndex) with
        | none => exact hcut
        | some old =>
            cases hc : st.chain with
            | none => rw [hlaw.unborn hc] at hold; cases hold
            | some c₀ =>
                obtain ⟨c', hc', had⟩ := hadv c₀ hc
                obtain rfl := Option.some.inj (hstored.symm.trans hc')
                have hle := (hlaw.earlier c₀ hc _ _ hold).2
                rcases had.index with hlt | ⟨he, hsame⟩
                · exact absurd hlt (Nat.not_lt.mpr hle)
                · obtain ⟨h, hh, hcut₀⟩ := hlaw.truthful c₀ hc
                  rw [had.transparencyId, he] at hold
                  obtain rfl := Option.some.inj (hold.symm.trans hh)
                  exact hcut₀.trans hsame.symm
      · obtain rfl := Option.some.inj (hstored.symm.trans hc₁)
        rw [hfind] at hq
        split at hq
        · rename_i he
          rw [he]
          exact ⟨rfl, Nat.le_refl _⟩
        · cases hc : st.chain with
          | none => rw [hlaw.unborn hc] at hq; cases hq
          | some c₀ =>
              obtain ⟨c', hc', had⟩ := hadv c₀ hc
              obtain rfl := Option.some.inj (hstored.symm.trans hc')
              obtain ⟨h₁, h₂⟩ := hlaw.earlier c₀ hc _ _ hq
              refine ⟨h₁.trans had.transparencyId.symm, ?_⟩
              rcases had.index with hlt | ⟨he, -⟩ <;> omega

/-- A head once published stays. -/
theorem Cuts.heads (h : Cuts X st st') {q : String × Nat} {x : HeadRow}
    (hx : st.heads.find? q = some x) : st'.heads.find? q = some x := by
  cases h with
  | kept hh _ => exact hh ▸ hx
  | published _ hh _ _ _ => rw [hh, Table.find?_insertIgnore, hx, Option.getD_some, ite_self]

/-- An earlier and a later store of a chain: its heads stay, its row goes on. -/
structure Store.Proceeds (X : Crypto) (st st' : Store) : Prop where
  heads : ∀ q x, st.heads.find? q = some x → st'.heads.find? q = some x
  row : st.Advances X st'

theorem Chain.Advances.trans {c c' c'' : Chain} (h : c.Advances X c') (h' : c'.Advances X c'') :
    c.Advances X c'' := by
  refine ⟨h'.transparencyId.trans h.transparencyId, ?_⟩
  rcases h.index with hlt | ⟨he, hcut⟩
  · rcases h'.index with hlt' | ⟨he', -⟩
    · exact .inl (by omega)
    · exact .inl (by omega)
  · rcases h'.index with hlt' | ⟨he', hcut'⟩
    · exact .inl (by omega)
    · exact .inr ⟨he'.trans he, hcut'.trans hcut⟩

theorem Store.Proceeds.refl (st : Store) : st.Proceeds X st := ⟨fun _ _ h => h, .of_eq rfl⟩

theorem Store.Proceeds.trans {st'' : Store} (h : st.Proceeds X st') (h' : st'.Proceeds X st'') :
    st.Proceeds X st'' := by
  refine ⟨fun q x hx => h'.heads q x (h.heads q x hx), fun c hc => ?_⟩
  obtain ⟨c', hc', had⟩ := h.row c hc
  obtain ⟨c'', hc'', had'⟩ := h'.row c' hc'
  exact ⟨c'', hc'', had.trans had'⟩

end Law

section Runs

variable {X : Crypto} {cfg : RelayConfig} {id : String} {es es' : List Event}

theorem store_headLaw (hes : StepsMeet (World.step X) (LogsAnew X id) (World.initial cfg) es) :
    HeadLaw X (storeAfter X cfg es id) := by
  refine store_invariant_of (Q := HeadLaw X) ⟨fun _ _ => rfl, fun _ hc => (by cases hc),
    fun _ hc => (by cases hc)⟩ (fun w ev _ hs hC hlaw => ?_) hes
  exact (step_txn X w ev id).cuts.headLaw ((step_txn X w ev id).advances hs hC) hlaw

theorem store_proceeds
    (hes : StepsMeet (World.step X) (LogsAnew X id) (World.initial cfg) (es ++ es')) :
    (storeAfter X cfg es id).Proceeds X (storeAfter X cfg (es ++ es') id) := by
  unfold storeAfter World.after
  rw [run_append]
  refine (run_invariant_of (I := fun w : World => (w.Bounded cfg ∧
    (w.store id).Holds (Settled X id)) ∧ (storeAfter X cfg es id).Proceeds X (w.store id))
    ⟨⟨after_bounded X cfg es, store_settled X cfg es id⟩, .refl _⟩ (fun w ev h hC => ?_)
    (stepsMeet_append.mp hes).2).2
  have htxn := step_txn X w ev id
  exact ⟨⟨step_bounded h.1.1 ev, step_settled X h.1.1 h.1.2 ev⟩,
    h.2.trans ⟨fun q x => htxn.cuts.heads, htxn.advances h.1.2 hC⟩⟩

end Runs

/-! ## Truthful heads -/

/-- Along every run on whose rotations something is logged anew: the head of
the stored row repeats it, and is what a read of it answers with; a head once
published stays; and the row does not change in what its head repeats without
a later index. -/
theorem published_heads (X : Crypto) (cfg : RelayConfig) (id : String) {es : List Event}
    (hes : StepsMeet (World.step X) (LogsAnew X id) (World.initial cfg) es) :
    (∀ c, (storeAfter X cfg es id).chain = some c → ∃ h,
      publishedHead (storeAfter X cfg es id) c.transparencyId c.transparencyIndex = some h ∧
      h.cut = c.cut X ∧
      ∀ R call u, call.route = .transparencyHead → u.cell = (storeAfter X cfg es id).cell →
        readRoute R call u = .ok (.obj [("head", h.toJson)], u)) ∧
    ∀ es₁ es₂ es₃, es = es₁ ++ es₂ ++ es₃ →
      (∀ q x, (storeAfter X cfg es₁ id).heads.find? q = some x →
        (storeAfter X cfg (es₁ ++ es₂) id).heads.find? q = some x) ∧
      ∀ c, (storeAfter X cfg es₁ id).chain = some c →
        ∃ c', (storeAfter X cfg (es₁ ++ es₂) id).chain = some c' ∧
          c'.transparencyId = c.transparencyId ∧
          (c.transparencyIndex < c'.transparencyIndex ∨
            c'.transparencyIndex = c.transparencyIndex ∧ c'.cut X = c.cut X) := by
  refine ⟨fun c hc => ?_, ?_⟩
  · obtain ⟨row, hrow, hcut⟩ := (store_headLaw hes).truthful c hc
    have hhead : publishedHead (storeAfter X cfg es id) c.transparencyId c.transparencyIndex =
        some row.head := by rw [publishedHead, hrow, Option.map_some]
    refine ⟨row.head, hhead, hcut, fun R call u hroute hu => ?_⟩
    rw [Store.cell_of hc] at hu
    have hread : look (publishedHead · u.cell.chain.transparencyId
        u.cell.chain.transparencyIndex) u = .ok (some row.head, u) := by
      rw [hu]
      exact look_ok.mpr ⟨by rw [hu]; exact hhead.symm, rfl⟩
    simp only [readRoute, hroute, bind_ok, chain_ok, require_ok, pure_ok]
    exact ⟨_, _, ⟨rfl, rfl⟩, _, _, hread, _, _, ⟨rfl, rfl⟩, rfl, rfl⟩
  · rintro es₁ es₂ es₃ rfl
    obtain ⟨hheads, hrow⟩ := store_proceeds (stepsMeet_append.mp hes).1
    refine ⟨hheads, fun c hc => ?_⟩
    obtain ⟨c', hc', had⟩ := hrow c hc
    exact ⟨c', hc', had.transparencyId, had.index⟩

namespace Sample

/-- The epoch after the one of the re-seed, with its envelopes. -/
def recoveryAfter : Json := envelope 95 1 2 (hashOf epochR) none

def epochAfter : Json := epochRecord 1 2 (hashOf epochR) "scheduled" [2] [] recoveryAfter

def envelopeAfter : Json := envelope 96 1 2 (hashOf epochR) (some 2)

/-- The import stages that epoch, and the re-seed logs what is staged; then
the admin rotates to it. -/
def stagedRotation : List Event :=
  genesisRun ++
    perform 1 1 (request .importChain "POST" importPath (token 3 none "POST" importPath) ""
      ((importBody [epochAfter, epoch0]).set "envelopes"
        (.arr [envelopeAfter, recoveryAfter]))) ++
    upload 2 2 1 (partsRequest 4 [newPart]) ++
    perform 3 9 (reseedRequest (uid 30006) [newPart]) ++
    perform 4 10 (request .epochsPost "POST" epochsPath (token 9 none "POST" epochsPath) ""
      (rotationBody epochR epochAfter [envelopeAfter, recoveryAfter] .null))

/-- The head that is published for the stored row. -/
def currentHead (st : Store) : Option (Chain × Head) :=
  st.chain.bind fun c =>
    (publishedHead st c.transparencyId c.transparencyIndex).map fun h => (c, h)

/-- `LogsAnew`, checked for every chain. -/
def logsAnew (w : World) (ev : Event) : Bool :=
  (w.acting ev).all fun call =>
    !(decide (call.route = .epochsPost) || decide (call.route = .revoke)) ||
      (epochCommit call.value).objects.any fun q =>
        ((w.store call.chain).receipts.find? (q.1, objectId q.2 q.1)).isNone

theorem logsAnew_meets {id : String} {w : World} {ev : Event} (h : logsAnew w ev = true) :
    LogsAnew crypto id w ev := by
  rintro call hact rfl hroute -
  rw [logsAnew, hact, Option.all_some] at h
  rcases hroute with hroute | hroute
  · simpa [hroute] using h
  · simpa [hroute] using h

theorem rotation_facts :
    (stepsAll (World.step crypto) logsAnew (.initial cfg) (genesisRun ++ rotationRun) &&
      (storeAfter crypto cfg (genesisRun ++ rotationRun) chainId).chain.any
        fun c => n c.epoch "epoch" == 1) = true := by
  decide +kernel

end Sample

/-- The head of a chain that was rotated once. -/
theorem published_heads_rotation : ∃ (c : Chain) (h : Head),
    publishedHead (storeAfter Sample.crypto Sample.cfg (Sample.genesisRun ++ Sample.rotationRun)
      Sample.chainId) c.transparencyId c.transparencyIndex = some h ∧
    h.cut = c.cut Sample.crypto ∧ n c.epoch "epoch" = 1 := by
  obtain ⟨hmeet, hrow⟩ := Bool.and_eq_true_iff.mp Sample.rotation_facts
  obtain ⟨c, hc, hepoch⟩ := (Option.any_eq_true _ _).mp hrow
  obtain ⟨h, hh, hcut, -⟩ := (published_heads Sample.crypto Sample.cfg Sample.chainId
    (stepsMeet_of_all (fun _ _ => Sample.logsAnew_meets) hmeet)).1 c hc
  exact ⟨c, h, hh, hcut, by simpa using hepoch⟩

/-- A rotation to an epoch that is logged already: the row has the new epoch,
and its head the old one. -/
theorem staged_rotation_unpublished : ∃ es c h,
    (storeAfter Sample.crypto Sample.cfg es Sample.chainId).chain = some c ∧
    publishedHead (storeAfter Sample.crypto Sample.cfg es Sample.chainId) c.transparencyId
      c.transparencyIndex = some h ∧
    h.epochHash ≠ c.epochHash Sample.crypto := by
  have hrun : (Sample.currentHead (storeAfter Sample.crypto Sample.cfg Sample.stagedRotation
      Sample.chainId)).any (fun p => p.2.epochHash != p.1.epochHash Sample.crypto) = true := by
    decide +kernel
  obtain ⟨⟨c, h⟩, hfound, hne⟩ := (Option.any_eq_true _ _).mp hrun
  obtain ⟨c', hc, hmap⟩ := Option.bind_eq_some_iff.mp hfound
  obtain ⟨h', hh, hpair⟩ := Option.map_eq_some_iff.mp hmap
  cases hpair
  exact ⟨_, _, _, hc, hh, by simpa using hne⟩

end PallaSync
