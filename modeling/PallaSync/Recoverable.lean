import PallaSync.Ancestry
import PallaSync.Coverage

/-!
# Pruned records can be recovered

A chain that removed records from the head of its log names the compaction that
stands in for them. The compaction and its parts stay stored, under an epoch
whose keys are not given up before another prune names another compaction
(`pruned_recoverable`).
-/

namespace PallaSync

open Machine

/-- The body `v` is stored. -/
def Ledger.Stores (L : Ledger) (kind : Kind) (id : String) (v : Json) : Prop :=
  ∃ o, L.objects.find? (kind, id) = some o ∧ o.body = some v

/-- The compaction `comp` of the epoch `e` stands in for what was pruned. -/
structure Recoverable (X : Crypto) (L : Ledger) (comp e : Json) : Prop where
  boundary : L.chain.boundaryCompactionId = some (s comp "compaction_id")
  stored : L.Stores .compaction (s comp "compaction_id") comp
  generation : n comp "generation" = L.chain.generation
  logId : s comp "log_id" = L.chain.logId
  covered : L.chain.minAvailableSeq - 1 ≤ n comp "covered_through_seq"
  coveredHash : L.logHash L.chain.logId (n comp "covered_through_seq") =
    some (s comp "covered_log_hash")
  parts : ∀ p ∈ a comp "snapshot_parts", ∃ part, L.Stores .snapshotPart (s p "record_id") part ∧
    X.objectHash part = s p "record_hash" ∧ n part "epoch" = n e "epoch"
  epoch : L.Stores .epoch (toString (n e "epoch")) e
  epochHash : X.objectHash e = s comp "epoch_hash"
  handoffs : ∀ number, n e "epoch" ≤ number → L.handoffs.find? number = none

/-- What was pruned can be recovered. -/
def Ledger.Recovers (X : Crypto) (L : Ledger) : Prop :=
  1 < L.chain.minAvailableSeq → ∃ comp e, Recoverable X L comp e

/-- A record of the current log whose body was removed. -/
structure RemovedRecord (L : Ledger) (o : ObjectRow) : Prop where
  pruned : ∃ i, o.relaySeq = some i ∧ i < L.chain.minAvailableSeq
  receipt : ∃ rr, L.receipts.find? (.record, o.objectId) = some rr ∧
    rr.logId = L.chain.logId ∧ rr.seq = o.relaySeq ∧ rr.receipt.objectHash = o.objectHash

section Moves

variable {X : Crypto} {R : Relay} {cause : Option Call} {a mid b : Cell} {L L' M : Ledger}
  {k : Kind} {id : String} {v comp e : Json}

theorem Ledger.Stores.mono (h : L.Stores k id v) (hk : ¬k.removable) (hg : Grows L L') :
    L'.Stores k id v := by
  obtain ⟨o, ho, hb⟩ := h
  exact hg.body hk ho hb

/-- The terms that a prune sets are as they were. -/
structure SameBoundary (L L' : Ledger) : Prop where
  boundary : L'.chain.boundaryCompactionId = L.chain.boundaryCompactionId
  parameters : L'.chain.parameters = L.chain.parameters
  logId : L'.chain.logId = L.chain.logId
  minimum : L'.chain.minAvailableSeq = L.chain.minAvailableSeq

theorem SameBoundary.refl (L : Ledger) : SameBoundary L L := ⟨rfl, rfl, rfl, rfl⟩

theorem SameBoundary.trans (h : SameBoundary L M) (h' : SameBoundary M L') : SameBoundary L L' :=
  ⟨h'.boundary.trans h.boundary, h'.parameters.trans h.parameters, h'.logId.trans h.logId,
    h'.minimum.trans h.minimum⟩

theorem SameTerms.sameBoundary (h : SameTerms L L') : SameBoundary L L' :=
  ⟨h.boundary, h.parameters, h.logId, h.minAvailableSeq⟩

/-- The moves between which a compaction keeps standing in. -/
def Move.keepsBoundary : Move → Bool
  | .setEpoch _ | .handoff _ | .expire _ => true
  | m => m.ordinary

theorem Step.sameBoundary {m : Move} (h : Step X m L L') (hm : m.keepsBoundary = true) :
    SameBoundary L L' := by
  by_cases ho : m.ordinary = true
  · exact (h.sameTerms ho).sameBoundary
  · cases h with
    | setEpoch => exact ⟨rfl, rfl, rfl, rfl⟩
    | handoff _ he => exact ⟨by rw [he], by rw [he], by rw [he], by rw [he]⟩
    | expire _ _ _ hc => exact ⟨by rw [hc], by rw [hc], by rw [hc], by rw [hc]⟩
    | evidence hw => exact hw.sameTerms.sameBoundary
    | prune _ _ _ _ _ | found _ _ | reincarnate _ _ => cases hm
    | log _ _ | enlist _ _ | partAgain | part _ | stage _ _ | revoke _ | activate _ =>
        exact absurd rfl ho

theorem Steps.sameBoundary {ms : List Move} (h : Steps X ms L L')
    (hms : ∀ m ∈ ms, m.keepsBoundary = true) : SameBoundary L L' :=
  h.preserves (P := SameBoundary L) (fun _ _ _ hm hs hL => hL.trans (hs.sameBoundary hm)) hms
    (.refl L)

/-- While the ledger grows under the same boundary, and no epoch is handed off,
the compaction stands in. -/
theorem Recoverable.mono (h : Recoverable X L comp e) (hg : Grows L L')
    (hb : SameBoundary L L')
    (hh : ∀ number, L.handoffs.find? number = none → L'.handoffs.find? number = none) :
    Recoverable X L' comp e where
  boundary := hb.boundary.trans h.boundary
  stored := h.stored.mono (by simp [Kind.removable]) hg
  generation := h.generation.trans (by rw [Chain.generation, Chain.generation, hb.parameters])
  logId := h.logId.trans hb.logId.symm
  covered := hb.minimum ▸ h.covered
  coveredHash := hb.logId ▸ hg.logHash h.coveredHash
  parts := fun p hp => by
    obtain ⟨part, hpart, hrest⟩ := h.parts p hp
    exact ⟨part, hpart.mono (by simp [Kind.removable]) hg, hrest⟩
  epoch := h.epoch.mono (by simp [Kind.removable]) hg
  epochHash := h.epochHash
  handoffs := fun number hle => hh number (h.handoffs number hle)

theorem Ledger.Recovers.mono (h : L.Recovers X) (hg : Grows L L') (hb : SameBoundary L L')
    (hh : ∀ number, L.handoffs.find? number = none → L'.handoffs.find? number = none) :
    L'.Recovers X := fun hmin => by
  rw [hb.minimum] at hmin
  obtain ⟨comp, e, hrec⟩ := h hmin
  exact ⟨comp, e, hrec.mono hg hb hh⟩

theorem Ledger.Recovers.ordinary (h : L.Recovers X) (ho : Ordinary X L L') : L'.Recovers X :=
  h.mono ho.grows ho.sameTerms.sameBoundary fun _ hn => by rw [ho.sameTerms.handoffs, hn]

theorem Ledger.recovers_of_whole (h : L.chain.minAvailableSeq = 1) : L.Recovers X := fun hmin => by
  omega

/-- The epoch of an anchored chain is stored, under its number. -/
theorem Anchored.storedEpoch (h : Anchored X L) (hs : Sound X L) :
    ∃ e, L.Stores .epoch (toString (n e "epoch")) e ∧ n e "epoch" = n L.chain.epoch "epoch" ∧
      X.objectHash e = X.objectHash L.chain.epoch := by
  obtain ⟨o, ho, hhash⟩ := h.epoch
  have hok := hs.object_of_find? ho
  obtain ⟨hkind, hid⟩ := Prod.mk.inj (Table.key_of_find? ho : o.key = _)
  cases hb : o.body with
  | none =>
      have hremoved := hok.removed hb
      rw [hkind] at hremoved
      simp [Kind.removable] at hremoved
  | some e =>
      obtain ⟨hdigest, hobjid⟩ := hok.body e hb
      rw [hkind, hid] at hobjid
      have hnumber : n e "epoch" = n L.chain.epoch "epoch" := toString_inj hobjid
      exact ⟨e, ⟨o, by rw [hnumber]; exact ho, hb⟩, hnumber, hdigest.trans hhash⟩

/-- A prune leaves the records it removes to the compaction that it names. -/
theorem Pruned.recoverable {rows : List HandoffRow} {expired : List Nat}
    (h : Pruned R v comp rows expired a mid b) (hs : Sound R.crypto a.ledger)
    (ha : Anchored R.crypto a.ledger) (hL : a.ledger.Handoffs)
    (hmin : 1 < b.chain.minAvailableSeq) : ∃ e, Recoverable R.crypto b.ledger comp e := by
  have hok := pruneCheck_ok h.checked
  have hcomp := hok.compaction
  have hfirst := h.first.steps
  have hgrows : Grows a.ledger b.ledger := hfirst.grows.trans h.second.steps.grows
  have hsteady : Steady a.ledger mid.ledger := hfirst.steady (by simp [Move.steady])
  have hlate : SameBoundary mid.ledger b.ledger := h.second.steps.sameBoundary fun m hm => by
    simp only [List.mem_append, List.mem_map, List.mem_singleton] at hm
    obtain (⟨_, -, rfl⟩ | ⟨_, -, rfl⟩) | rfl := hm <;> rfl
  have hset : mid.ledger.chain.boundaryCompactionId = some (s comp "compaction_id") ∧
      mid.ledger.chain.minAvailableSeq = n v "through_seq" + 1 := by
    obtain _ | ⟨hlog, hrest⟩ := hfirst
    obtain _ | ⟨hprune, hnil⟩ := hrest
    obtain _ | _ := hnil
    cases hprune with
    | prune _ _ _ _ hc => exact ⟨by rw [hc], by rw [hc]⟩
  have hlogId : b.ledger.chain.logId = a.chain.logId := hlate.logId.trans hsteady.logId
  have hparameters : b.ledger.chain.parameters = a.chain.parameters :=
    hlate.parameters.trans hsteady.parameters
  have hthrough : b.chain.minAvailableSeq = n v "through_seq" + 1 := hlate.minimum.trans hset.2
  have hle := hok.through_le
  -- the compaction, under its own identifier
  obtain ⟨o, ho, hbody⟩ := object_eq_some.mp hok.stored
  have hid : s comp "compaction_id" = s v "compaction_id" := by
    obtain ⟨hkind, hoid⟩ := Prod.mk.inj (Table.key_of_find? ho : o.key = _)
    have hcid := ((hs.object_of_find? (L := a.ledger) ho).body comp hbody).2
    rw [hkind, hoid] at hcid
    exact hcid
  obtain ⟨e, hstored, hnumber, hdigest⟩ := ha.storedEpoch hs
  refine ⟨e, ?_⟩
  exact {
    boundary := hlate.boundary.trans hset.1
    stored := Ledger.Stores.mono (L := a.ledger) ⟨o, hid ▸ ho, hbody⟩ (by simp [Kind.removable])
      hgrows
    generation := hcomp.generation.trans
      (by rw [Chain.generation, Chain.generation, hparameters])
    logId := hcomp.logId.trans hlogId.symm
    covered := by
      show b.chain.minAvailableSeq - 1 ≤ _
      omega
    coveredHash := by
      have hcovered : n comp "covered_through_seq" ≠ 0 := by omega
      have hhash := hcomp.coveredHash
      rw [coveredHash, if_neg hcovered] at hhash
      rw [hlogId]
      exact hgrows.logHash (Check.require_ok.mp hhash)
    parts := fun p hp => by
      have hpart := hcomp.parts p hp
      simp only [compactionPart, Check.bind_ok, Check.require_ok, Check.failIf_ok,
        Bool.or_eq_false_iff, bne_eq_false_iff_eq] at hpart
      obtain ⟨part, hfind, _, ⟨⟨hhash, -⟩, hepoch⟩, -⟩ := hpart
      exact ⟨part, Ledger.Stores.mono (L := a.ledger) (object_eq_some.mp hfind)
        (by simp [Kind.removable]) hgrows, hhash, hepoch.trans hnumber.symm⟩
    epoch := hstored.mono (by simp [Kind.removable]) hgrows
    epochHash := hdigest.trans hcomp.epochHash.symm
    handoffs := fun number hle => by
      by_contra hsome
      obtain ⟨row, hrow⟩ := Option.ne_none_iff_exists'.mp hsome
      have holder := (h.handoffs hs hL number row hrow).older
      have hkey : row.epoch = number := Table.key_of_find? hrow
      have hepoch : b.ledger.chain.epoch = a.chain.epoch :=
        ((h.second.steps.steady fun m hm => by
          simp only [List.mem_append, List.mem_map, List.mem_singleton] at hm
          obtain (⟨_, -, rfl⟩ | ⟨_, -, rfl⟩) | rfl := hm <;> rfl).epoch).trans hsteady.epoch
      have hnumber : n e "epoch" = n a.chain.epoch "epoch" := hnumber
      rw [hkey, hepoch] at holder
      omega }

theorem Passage.recovers (h : Passage R cause a L') (hs : Sound R.crypto a.ledger)
    (ha : Anchored R.crypto a.ledger) (hL : a.ledger.Handoffs)
    (hrec : a.ledger.Recovers R.crypto) : L'.Recovers R.crypto := by
  cases h with
  | ordinary ho => exact hrec.ordinary ho
  | rotated _ _ ho _ he =>
      subst he
      exact (hrec.ordinary ho).mono (.of_eq rfl rfl rfl rfl) ⟨rfl, rfl, rfl, rfl⟩ fun _ hn => hn
  | @pruned _ comp _ _ _ _ _ _ hp he =>
      subst he
      intro hmin
      obtain ⟨e, he⟩ := hp.recoverable hs ha hL hmin
      exact ⟨comp, e, he⟩
  | expired hsteps =>
      refine hrec.mono hsteps.grows (hsteps.sameBoundary fun m hm => ?_) fun number hnone =>
        hsteps.no_handoff (fun m hm row he => ?_) hnone
      · obtain ⟨_, -, rfl⟩ := List.mem_map.mp hm
        rfl
      · obtain ⟨_, -, rfl⟩ := List.mem_map.mp hm
        cases he
  | reseeded _ _ _ _ ho _ ho' =>
      refine Ledger.recovers_of_whole (ho'.sameTerms.minAvailableSeq.trans ?_)
      exact ho.sameTerms.minAvailableSeq.trans rfl

end Moves

section Runs

variable {X : Crypto} {cfg : RelayConfig} {id : String}

/-- The terms of every chain are on file. -/
theorem store_anchored (X : Crypto) (cfg : RelayConfig) (es : List Event) (id : String) :
    (storeAfter X cfg es id).Anchored X := by
  have hboth : (storeAfter X cfg es id).Holds (Settled X id) ∧
      (storeAfter X cfg es id).Anchored X := by
    refine store_invariant (P := fun st => st.Holds (Settled X id) ∧ st.Anchored X)
      ⟨blank_holds _, fun _ _ hc => by cases hc⟩ (fun R cause st st' hc hst => ?_) es
    obtain rfl := hc.crypto
    refine ⟨(hc.holds (P := fun _ => True) (fun _ _ _ _ _ => trivial)
      (fun _ _ _ _ _ _ _ _ _ => trivial) (hst.1.imp fun _ h => ⟨h, trivial⟩)).imp fun _ h => h.1,
      fun hdel => ?_⟩
    obtain ⟨hd, hacted⟩ := hc.commit.acted hdel hc.bound
    exact hacted.anchored hd hst.1 hst.2 hdel
  exact hboth.2

/-- What an undeleted chain pruned can be recovered. -/
def Store.Recovers (X : Crypto) (st : Store) : Prop :=
  st.deletion = none → ∀ c, st.chain = some c → (st.ledger c).Recovers X

theorem Course.recovers {R : Relay} {cause : Option Call} {st st' : Store}
    (h : Course R id cause st st') (hdel : st.deletion = none)
    (hs : st.Holds (Settled R.crypto id)) (ha : st.Anchored R.crypto)
    (hL : st.Holds Ledger.Handoffs) (hrec : st.Recovers R.crypto) : st'.Recovers R.crypto := by
  intro _ c' hc'
  cases h with
  | absent _ hnone _ =>
      rw [hnone] at hc'
      cases hc'
  | founded _ hthere hrow _ ho =>
      obtain rfl := Option.some.inj (hthere.symm.trans hc')
      refine Ledger.recovers_of_whole (ho.sameTerms.minAvailableSeq.trans ?_)
      exact congrArg Chain.minAvailableSeq hrow
  | passed hthere hthere' hp =>
      obtain rfl := Option.some.inj (hthere'.symm.trans hc')
      exact hp.recovers (hs.ledger hdel hthere).sound (ha hdel _ hthere) (hL.ledger hdel hthere)
        (hrec hdel _ hthere)

theorem store_recovers (X : Crypto) (cfg : RelayConfig) (es : List Event) (id : String) :
    (storeAfter X cfg es id).Recovers X := by
  induction es using List.reverseRecOn with
  | nil =>
      intro _ c hc
      cases hc
  | append_singleton es ev ih =>
      have hnext : storeAfter X cfg (es ++ [ev]) id =
          ((World.after X cfg es).step X ev).store id := by
        rw [storeAfter, World.after, run_snoc]
        rfl
      rw [hnext]
      intro hdel
      obtain hsame | ⟨R, cause, hcommit, -⟩ :=
        step_commitOn (X := X) (after_bounded X cfg es) ev id
      · rw [hsame] at hdel ⊢
        exact ih hdel
      · obtain rfl := hcommit.crypto
        have hs := store_settled R.crypto cfg es id
        obtain ⟨hbefore, hcourse⟩ := hcommit.commit.course hdel hcommit.bound hs
        exact hcourse.recovers hbefore hs (store_anchored R.crypto cfg es id)
          (store_handoffs R.crypto cfg es id) ih hdel

end Runs

/-- Once the log of an undeleted chain was pruned, its boundary names a stored
compaction, of the current log and generation, that covers what was pruned, with
its parts; no epoch from that of the compaction on was handed off, so none has
expired. Every record of the log that is removed is behind the boundary, and
keeps its receipt and the digest that its body had. -/
theorem pruned_recoverable (X : Crypto) (cfg : RelayConfig) (es : List Event) (id : String)
    (c : Chain) (hdel : (storeAfter X cfg es id).deletion = none)
    (hc : (storeAfter X cfg es id).chain = some c) :
    ((storeAfter X cfg es id).ledger c).Recovers X ∧
      (∀ o ∈ (storeAfter X cfg es id).objects, o.kind = .record → o.body = none →
        o.logId = some c.logId → RemovedRecord ((storeAfter X cfg es id).ledger c) o) ∧
      ∀ es₁ es₂ k o r, es = es₁ ++ es₂ →
        (storeAfter X cfg es₁ id).objects.find? (.record, k) = some o → o.body = some r →
        ∃ o' rr, (storeAfter X cfg es id).objects.find? (.record, k) = some o' ∧
          o'.objectHash = X.objectHash r ∧
          (storeAfter X cfg es₁ id).receipts.find? (.record, k) = some rr ∧
          (storeAfter X cfg es id).receipts.find? (.record, k) = some rr := by
  have hs := ((store_settled X cfg es id).ledger hdel hc).sound
  refine ⟨store_recovers X cfg es id hdel c hc, fun o ho hkind hbody hlog => ?_,
    fun es₁ es₂ k o r hsplit ho hr => ?_⟩
  · obtain ⟨i, hi, hlt⟩ := hs.pruned o ho hkind hbody hlog
    obtain ⟨rr, hrr⟩ := Option.isSome_iff_exists.mp ((hs.objects o ho).placed (by rw [hlog]; rfl))
    obtain ⟨hrkind, hrid⟩ := Prod.mk.inj (Table.key_of_find? hrr : rr.key = _)
    have hok := hs.receipt_of_find? hrr
    obtain ⟨o', ho', hhash, hplace⟩ := hok.object
    have hsame : o' = o := by
      rw [hrkind, hrid] at ho'
      exact Option.some.inj (ho'.symm.trans (Table.find?_of_mem ho))
    subst hsame
    have hseq : rr.seq.isSome := by
      rw [Option.isSome_iff_ne_none]
      intro hnone
      have hpart := hok.part.mp hnone
      rw [hrkind, hkind] at hpart
      cases hpart
    obtain ⟨hl, hi'⟩ := hplace hseq
    refine ⟨⟨i, hi, hlt⟩, rr, hkind ▸ hrr, ?_, hi'.symm, hhash.symm⟩
    exact Option.some.inj (hl.symm.trans hlog)
  · subst hsplit
    obtain ⟨hbefore, hearlier⟩ := store_earlier X cfg es₁ es₂ id hdel
    cases hc₁ : (storeAfter X cfg es₁ id).chain with
    | none =>
        have hnone := ((store_settled X cfg es₁ id).bare hbefore hc₁).objects (.record, k)
        cases hnone.symm.trans ho
    | some c₁ =>
        obtain ⟨c', -, hkept⟩ := hearlier c₁ hc₁
        obtain ⟨o', ho', hlater⟩ := hkept.grows.objects _ o ho
        have hok := ((store_settled X cfg es₁ id).ledger hbefore hc₁).sound.object_of_find?
          (L := (storeAfter X cfg es₁ id).ledger c₁) ho
        obtain ⟨hkind, hoid⟩ := Prod.mk.inj (Table.key_of_find? ho : o.key = (.record, k))
        obtain ⟨rr, hrr⟩ := Option.isSome_iff_exists.mp (hok.placed (hok.record hkind))
        rw [hkind, hoid] at hrr
        exact ⟨o', rr, ho', hlater.objectHash.trans (hok.body r hr).1.symm, hrr,
          hkept.grows.receipts _ rr hrr⟩

namespace Sample

theorem boundary_facts :
    ((storeAfter crypto cfg (recordedRun ++ pruning) chainId).deletion.isNone &&
      (storeAfter crypto cfg (recordedRun ++ pruning) chainId).chain.any fun c =>
        decide (1 < c.minAvailableSeq)) = true := by
  decide +kernel

end Sample

/-- The pruned log of the sample run can be recovered. -/
theorem pruned_recoverable_sample : ∃ c comp e,
    (storeAfter Sample.crypto Sample.cfg (Sample.recordedRun ++ Sample.pruning)
      Sample.chainId).chain = some c ∧ 1 < c.minAvailableSeq ∧
    Recoverable Sample.crypto ((storeAfter Sample.crypto Sample.cfg
      (Sample.recordedRun ++ Sample.pruning) Sample.chainId).ledger c) comp e := by
  have hfacts := Sample.boundary_facts
  simp only [Bool.and_eq_true, Option.isNone_iff_eq_none, Option.any_eq_true,
    decide_eq_true_eq] at hfacts
  obtain ⟨hdel, c, hc, hmin⟩ := hfacts
  obtain ⟨hrec, -⟩ := pruned_recoverable Sample.crypto Sample.cfg
    (Sample.recordedRun ++ Sample.pruning) Sample.chainId c hdel hc
  obtain ⟨comp, e, hcomp⟩ := hrec hmin
  exact ⟨c, comp, e, hc, hmin, hcomp⟩

end PallaSync
