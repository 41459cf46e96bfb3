import PallaSync.Admission
import PallaSync.Expiry

/-!
# What a snapshot must cover before keys go

The envelopes of an old epoch go once a prune hands the epoch off to a snapshot.
`handoff` looks at the positions of the envelopes, not at those of the records:
a snapshot that covers the envelopes only is accepted, and the records behind it
are left without a key (`uncovered_handoff`). Where every prune names a snapshot
that covers the records of the epochs it hands off, none is
(`expired_records_covered`).
-/

namespace PallaSync

open Atomic Machine

/-- A prune up to `through` hands the epoch off: it is older than the chain's, is
not handed off yet, and has no envelope behind the prune point. -/
structure Store.HandsOff (st : Store) (c : Chain) (through epoch : Nat) : Prop where
  policy : s c.policy "epoch_retention" ≠ "retain"
  older : ∃ x ∈ olderEpochs st c, n x "epoch" = epoch
  first : st.handoffs.find? epoch = none
  early : st.objects.rows.any (lateEnvelope c epoch through) = false

/-- The compaction covers the records of the epoch in the chain's log. -/
def Store.CoversEpoch (st : Store) (c : Chain) (comp : Json) (epoch : Nat) : Prop :=
  ∀ k o r i, st.objects.find? (.record, k) = some o → o.body = some r → n r "epoch" = epoch →
    o.logId = some c.logId → o.relaySeq = some i → i ≤ n comp "covered_through_seq"

/-- The compaction of a prune covers the records of every epoch that the prune
hands off. -/
def CoversHandoffs (X : Crypto) (id : String) (w : World) (ev : Event) : Prop :=
  ∀ call c comp, w.acting ev = some call → call.chain = id → call.route = .prune →
    (w.store id).chain = some c → pruneCheck X (w.store id) c call.value = .ok comp →
    ∀ epoch, (w.store id).HandsOff c (n call.value "through_seq") epoch →
      (w.store id).CoversEpoch c comp epoch

/-! ## Where handoffs come from -/

section Moves

variable {X : Crypto} {R : Relay} {cause : Option Call} {a mid : Cell} {L L' : Ledger}
  {m : Move} {ms : List Move} {epoch : Nat} {row : HandoffRow}

/-- Only a handoff brings a row. -/
theorem Step.no_handoff (h : Step X m L L') (hm : ∀ row, m ≠ .handoff row)
    (hnone : L.handoffs.find? epoch = none) : L'.handoffs.find? epoch = none := by
  by_cases ho : m.ordinary = true
  · rw [(h.sameTerms ho).handoffs]
    exact hnone
  · cases h with
    | setEpoch | found _ _ | reincarnate _ _ => exact hnone
    | prune _ _ _ hh _ => rw [hh]; exact hnone
    | handoff _ _ => exact absurd rfl (hm _)
    | expire _ _ hh _ => rw [hh, hnone]; rfl
    | evidence hw => rw [hw.sameTerms.handoffs]; exact hnone
    | log _ _ | enlist _ _ | partAgain | part _ | stage _ _ | revoke _ | activate _ =>
        exact absurd rfl ho

theorem Steps.no_handoff (h : Steps X ms L L') (hms : ∀ m ∈ ms, ∀ row, m ≠ .handoff row)
    (hnone : L.handoffs.find? epoch = none) : L'.handoffs.find? epoch = none :=
  h.preserves (P := fun L => L.handoffs.find? epoch = none)
    (C := fun m => ∀ row, m ≠ .handoff row) (fun _ _ _ hm hs hL => hs.no_handoff hm hL) hms hnone

theorem Steps.handoff_stays (h : Steps X ms L L') (hrow : L.handoffs.find? epoch = some row) :
    ∃ row', L'.handoffs.find? epoch = some row' ∧ row'.compactionId = row.compactionId :=
  h.preserves (P := fun L => ∃ row', L.handoffs.find? epoch = some row' ∧
      row'.compactionId = row.compactionId) (C := fun _ => True)
    (fun _ _ _ _ hs hL => by
      obtain ⟨row', hrow', hid⟩ := hL
      obtain ⟨row'', hrow'', hid', -⟩ := hs.handoff_stays hrow'
      exact ⟨row'', hrow'', hid'.trans hid⟩)
    (fun _ _ => trivial) ⟨row, hrow, rfl⟩

/-- A row that was handed off is as one of those that are. -/
theorem Steps.handoff_from {rows : List HandoffRow} (h : Steps X (rows.map .handoff) L L')
    (hnone : L.handoffs.find? epoch = none) (hrow : L'.handoffs.find? epoch = some row) :
    ∃ row' ∈ rows, row'.epoch = epoch ∧ row.compactionId = row'.compactionId := by
  induction rows generalizing L with
  | nil =>
      obtain _ | _ := h
      rw [hnone] at hrow
      cases hrow
  | cons first rows ih =>
      rw [List.map_cons] at h
      cases h with
      | @cons _ _ _ M _ hm hs =>
          cases hM : M.handoffs.find? epoch with
          | none =>
              obtain ⟨row', hmem, hrow'⟩ := ih hs hM
              exact ⟨row', List.mem_cons_of_mem _ hmem, hrow'⟩
          | some row' =>
              cases hm with
              | handoff hh _ =>
                  have hfirst := hM
                  rw [hh, hnone] at hfirst
                  split at hfirst
                  · rename_i he
                    obtain rfl := Option.some.inj hfirst
                    obtain ⟨last, hlast, hid⟩ := hs.handoff_stays hM
                    obtain rfl := Option.some.inj (hrow.symm.trans hlast)
                    exact ⟨first, List.mem_cons_self, he.symm, hid⟩
                  · cases hfirst

/-- A passage after which an epoch is handed off, and was not before, is a prune
to the compaction that the row names. -/
theorem Passage.hands_off (h : Passage R cause a L')
    (hnone : a.ledger.handoffs.find? epoch = none) (hrow : L'.handoffs.find? epoch = some row) :
    ∃ call comp rows expired mid b, cause = some call ∧ call.route = .prune ∧
      Pruned R call.value comp rows expired a mid b ∧
      ∃ row' ∈ rows, row'.epoch = epoch ∧ row.compactionId = row'.compactionId := by
  have never : L'.handoffs.find? epoch = none → False := fun hno => by
    rw [hno] at hrow
    cases hrow
  cases h with
  | ordinary ho =>
      exact (never (by rw [ho.sameTerms.handoffs]; exact hnone)).elim
  | rotated _ _ ho _ he =>
      subst he
      exact (never (ho.sameTerms.handoffs ▸ hnone)).elim
  | expired hsteps =>
      refine (never (hsteps.no_handoff (fun m hm row hmr => ?_) hnone)).elim
      obtain ⟨_, -, rfl⟩ := List.mem_map.mp hm
      cases hmr
  | reseeded _ _ _ _ ho _ ho' =>
      refine (never ?_).elim
      rw [ho'.sameTerms.handoffs]
      exact ho.sameTerms.handoffs ▸ hnone
  | @pruned call comp rows expired mid b hcause hroute hp he =>
      subst he
      obtain ⟨N, hbefore, hlast⟩ := Steps.of_append hp.second.steps
      obtain ⟨M, hhand, hexp⟩ := Steps.of_append hbefore
      have hmid : mid.ledger.handoffs.find? epoch = none :=
        hp.first.steps.no_handoff (by simp) hnone
      cases hM : M.handoffs.find? epoch with
      | none =>
          refine (never (hlast.no_handoff (by simp) (hexp.no_handoff (fun m hm row hmr => ?_)
            hM))).elim
          obtain ⟨_, -, rfl⟩ := List.mem_map.mp hm
          cases hmr
      | some row₁ =>
          obtain ⟨row₂, hrow₂, hid₂⟩ := hexp.handoff_stays hM
          obtain ⟨row₃, hrow₃, hid₃⟩ := hlast.handoff_stays hrow₂
          obtain rfl := Option.some.inj (hrow.symm.trans hrow₃)
          obtain ⟨row', hmem, he, hid⟩ := hhand.handoff_from hmid hM
          exact ⟨call, comp, rows, expired, mid, b, hcause, hroute, hp, row', hmem, he,
            hid₃.trans (hid₂.trans hid)⟩

/-- Of the objects, the first half of a prune changes its operation and the
records only. -/
theorem Pruned.first_objects {v comp : Json} {rows : List HandoffRow} {expired : List Nat}
    {b : Cell} (h : Pruned R v comp rows expired a mid b) {kind : Kind} (k : String)
    (hadmin : kind ≠ .admin) (hrecord : kind ≠ .record) :
    mid.store.objects.find? (kind, k) = a.store.objects.find? (kind, k) := by
  obtain _ | @⟨_, _, _, M, _, hlog, hrest⟩ := h.first.steps
  obtain _ | ⟨hprune, hnil⟩ := hrest
  obtain _ | _ := hnil
  cases hprune with
  | prune hb _ _ _ _ =>
      have hM : M.objects.find? (kind, k) = a.store.objects.find? (kind, k) := by
        cases hlog with
        | log _ hl =>
            cases hl with
            | again _ => rfl
            | fresh hf =>
                rw [hf.objects, if_neg fun he => hadmin (Prod.mk.inj he).1]
                rfl
      refine (hb.objects (kind, k)).trans ?_
      rw [hM]
      cases ho : a.store.objects.find? (kind, k) with
      | none => rfl
      | some o =>
          have hkind : o.kind = kind := congrArg Prod.fst (Table.key_of_find? ho : o.key = _)
          rw [Option.map_some, if_neg (by simp [ObjectRow.prunable, hkind, hrecord])]

theorem Pruned.first_row {v comp : Json} {rows : List HandoffRow} {expired : List Nat}
    {b : Cell} (h : Pruned R v comp rows expired a mid b) {o : ObjectRow}
    (hadmin : o.kind ≠ .admin) (hrecord : o.kind ≠ .record) :
    o ∈ mid.store.objects ↔ o ∈ a.store.objects := by
  have hsame := h.first_objects o.objectId hadmin hrecord
  constructor
  · intro ho
    exact Table.mem_of_find? (hsame.symm.trans (Table.find?_of_mem ho))
  · intro ho
    exact Table.mem_of_find? (hsame.trans (Table.find?_of_mem ho))

/-- What a prune hands off, it hands off as the state before it says. -/
theorem Pruned.handsOff {v comp : Json} {rows : List HandoffRow} {expired : List Nat} {b : Cell}
    (h : Pruned R v comp rows expired a mid b) (hmem : row ∈ rows)
    (hnone : a.ledger.handoffs.find? row.epoch = none) :
    a.store.HandsOff a.chain (n v "through_seq") row.epoch := by
  have hhanded := h.handedOff row hmem
  have hsteady : Steady a.ledger mid.ledger := h.first.steps.steady (by simp [Move.steady])
  have hlog : mid.chain.logId = a.chain.logId := hsteady.logId
  refine ⟨?_, ?_, hnone, ?_⟩
  · have hparameters : mid.chain.parameters = a.chain.parameters := hsteady.parameters
    have hpolicy := hhanded.policy
    rwa [Chain.policy, hparameters] at hpolicy
  · obtain ⟨x, hx, hnumber⟩ := hhanded.older
    refine ⟨x, ?_, hnumber.symm⟩
    obtain ⟨o, ho, hbody⟩ := List.mem_filterMap.mp hx
    refine List.mem_filterMap.mpr ⟨o, ?_, ?_⟩
    · split at hbody
      · rename_i hold
        exact (h.first_row (by simp [hold.1]) (by simp [hold.1])).mp ho
      · cases hbody
    · rwa [show mid.chain.epoch = a.chain.epoch from hsteady.epoch] at hbody
  · rw [List.any_eq_false]
    intro o ho hlate
    have hkind : o.kind = .envelope := by
      simp only [lateEnvelope, Bool.and_eq_true, decide_eq_true_eq] at hlate
      exact hlate.1.1
    have hrow := (h.first_row (by simp [hkind]) (by simp [hkind])).mpr ho
    refine List.any_eq_false.mp hhanded.early o hrow ?_
    rw [lateEnvelope, hlog]
    exact hlate

end Moves

/-! ## Along a run -/

section Runs

variable {X : Crypto} {cfg : RelayConfig} {es es' : List Event} {ev : Event} {id : String}
  {epoch : Nat} {row : HandoffRow}

/-- The step after which an epoch is handed off is a prune to the compaction
that its row names. -/
theorem step_handsOff (hdel : (storeAfter X cfg (es ++ [ev]) id).deletion = none)
    (hnone : (storeAfter X cfg es id).handoffs.find? epoch = none)
    (hrow : (storeAfter X cfg (es ++ [ev]) id).handoffs.find? epoch = some row) :
    ∃ call c comp, (World.after X cfg es).acting ev = some call ∧ call.chain = id ∧
      call.route = .prune ∧ (storeAfter X cfg es id).chain = some c ∧
      pruneCheck X (storeAfter X cfg es id) c call.value = .ok comp ∧
      row.compactionId = s comp "compaction_id" ∧
      (storeAfter X cfg es id).HandsOff c (n call.value "through_seq") epoch := by
  have hnext : storeAfter X cfg (es ++ [ev]) id = ((World.after X cfg es).step X ev).store id := by
    rw [storeAfter, World.after, run_snoc]
    rfl
  rw [hnext] at hdel hrow
  have never : ((World.after X cfg es).step X ev).store id = storeAfter X cfg es id → False :=
    fun hsame => by
      rw [hsame, hnone] at hrow
      cases hrow
  obtain hsame | ⟨R, cause, hc, hcause⟩ := step_commitOn (X := X) (after_bounded X cfg es) ev id
  · exact (never hsame).elim
  · obtain rfl := hc.crypto
    obtain ⟨-, hcourse⟩ := hc.commit.course hdel hc.bound (store_settled R.crypto cfg es id)
    have kept : (∀ c, (((World.after R.crypto cfg es).step R.crypto ev).store id).ledger c =
        (storeAfter R.crypto cfg es id).ledger c) → False := fun hl => by
      rw [show (((World.after R.crypto cfg es).step R.crypto ev).store id).handoffs =
        (storeAfter R.crypto cfg es id).handoffs from congrArg Ledger.handoffs (hl .unset),
        hnone] at hrow
      cases hrow
    cases hcourse with
    | absent _ _ hl => exact (kept hl).elim
    | founded _ _ _ _ ho =>
        have hh := ho.sameTerms.handoffs
        rw [show (((World.after R.crypto cfg es).step R.crypto ev).store id).handoffs =
          (storeAfter R.crypto cfg es id).handoffs from hh, hnone] at hrow
        cases hrow
    | @passed c c' hthere hthere' hp =>
        obtain ⟨call, comp, rows, expired, mid, b, hcall, hroute, hpruned, row', hmem, he, hid⟩ :=
          hp.hands_off hnone hrow
        subst he
        refine ⟨call, c, comp, hcause call hcall, (hc.bound call hcall).1, hroute, hthere,
          hpruned.checked, ?_, hpruned.handsOff hmem hnone⟩
        rw [hid, (hpruned.handedOff row' hmem).compactionId]

/-- A handoff names the same compaction for good. -/
theorem store_handoff_stays (X : Crypto) (cfg : RelayConfig) (es es' : List Event) (id : String)
    {epoch : Nat} {row : HandoffRow} (hdel : (storeAfter X cfg (es ++ es') id).deletion = none)
    (hrow : (storeAfter X cfg es id).handoffs.find? epoch = some row) :
    ∃ row', (storeAfter X cfg (es ++ es') id).handoffs.find? epoch = some row' ∧
      row'.compactionId = row.compactionId := by
  have hkeeps : (storeAfter X cfg es id).Keeps (fun L L' : Ledger => ∀ e r,
      L.handoffs.find? e = some r → ∃ r', L'.handoffs.find? e = some r' ∧
        r'.compactionId = r.compactionId) (storeAfter X cfg (es ++ es') id) :=
    ledger_keeps (fun _ _ _ r hr => ⟨r, hr, rfl⟩) (fun _ _ _ _ _ _ _ _ hK hp e r hr => by
      obtain ⟨r', hr', hid⟩ := hK e r hr
      obtain ⟨ms, hs, -⟩ := hp.steps
      obtain ⟨r'', hr'', hid'⟩ := hs.handoff_stays hr'
      exact ⟨r'', hr'', hid'.trans hid⟩) es es'
  obtain ⟨hbefore, hkept⟩ := hkeeps hdel
  cases hc : (storeAfter X cfg es id).chain with
  | none =>
      have hnone := ((store_settled X cfg es id).bare hbefore hc).handoffs epoch
      cases hnone.symm.trans hrow
  | some c =>
      obtain ⟨c', -, hstays⟩ := hkept c hc
      exact hstays epoch row hrow

/-- A record that is held has a row. -/
theorem Sound.record_row {st : Store} {c : Chain} {r : Json} (hs : Sound X (st.ledger c))
    (h : st.Has .record r) : (st.objects.find? (.record, s r "record_id")).isSome := by
  obtain ⟨k, o, ho, hbody⟩ | ⟨⟨l, i⟩, row, e, hrow, he, hkind, hobj⟩ := h
  · have hkey : o.key = (.record, k) := Table.key_of_find? ho
    obtain ⟨hk, hid⟩ := Prod.mk.inj hkey
    obtain ⟨-, hobjid⟩ := (hs.object_of_find? ho).body r hbody
    rw [hk, hid] at hobjid
    subst hobjid
    exact Option.isSome_iff_exists.mpr ⟨o, ho⟩
  · have hrow : (st.ledger c).log.find? (l, i) = some row := hrow
    obtain ⟨rr, hrr, hl, hi⟩ := hs.logged l i row hrow
    have hok := hs.receipts rr hrr
    obtain ⟨row', hrow', -, hentry, -⟩ := (hok.position i hi).row
    rw [hl, hrow] at hrow'
    obtain rfl := Option.some.inj hrow'
    obtain ⟨o, ho, -⟩ := hok.object
    have hrecord : rr.kind = .record := (hentry e he).kind.symm.trans hkind
    have hid := (hentry e he).objectId
    rw [hobj, hrecord] at hid
    rw [hrecord, ← hid] at ho
    exact Option.isSome_iff_exists.mpr ⟨o, ho⟩

/-- A record under an epoch that the chain has left had its row by then. -/
theorem older_record {c : Chain} {k : String} {o : ObjectRow} {r : Json}
    (hdel : (storeAfter X cfg (es ++ es') id).deletion = none)
    (hc : (storeAfter X cfg es id).chain = some c)
    (ho : (storeAfter X cfg (es ++ es') id).objects.find? (.record, k) = some o)
    (hr : o.body = some r) (hlt : n r "epoch" < n c.epoch "epoch") :
    ∃ o', (storeAfter X cfg es id).objects.find? (.record, k) = some o' := by
  obtain ⟨hbefore, hkept⟩ := store_earlier X cfg es es' id hdel
  obtain ⟨c', hc', -⟩ := hkept c hc
  have hs := ((store_settled X cfg es id).ledger hbefore hc).sound
  have hs' := ((store_settled X cfg (es ++ es') id).ledger hdel hc').sound
  have hkey : o.key = (.record, k) := Table.key_of_find? ho
  obtain ⟨hkind, hid⟩ := Prod.mk.inj hkey
  have hk : s r "record_id" = k := by
    have hbody := ((hs'.object_of_find? (L := (storeAfter X cfg (es ++ es') id).ledger c') ho).body
      r hr).2
    rw [hkind, hid] at hbody
    exact hbody
  by_contra hnone
  have hnot : ¬(storeAfter X cfg es id).Has .record r := fun hhas => by
    obtain ⟨o', ho'⟩ := Option.isSome_iff_exists.mp (hs.record_row hhas)
    exact hnone ⟨o', hk ▸ ho'⟩
  have hhas : (storeAfter X cfg (es ++ es') id).Has .record r :=
    .of_object (object_eq_some.mpr ⟨o, ho, hr⟩)
  rw [storeAfter, World.after, run_append] at hhas
  obtain ⟨front, ev, rest, rfl, hnot', hturn⟩ :=
    run_turns (P := fun w : World => (w.store id).Has .record r) hnot hhas
  have hsplit : es ++ (front ++ ev :: rest) = es ++ front ++ [ev] ++ rest := by simp
  rw [hsplit] at hdel
  have hlive := (store_earlier X cfg (es ++ front ++ [ev]) rest id hdel).1
  have hup := step_uploads X cfg (es ++ front) ev id r hlive
    (by rw [storeAfter, World.after, run_append]; exact hnot')
    (by rw [storeAfter, World.after, run_snoc, run_append]; exact hturn)
  obtain ⟨c₁, hc₁, -, hok, -⟩ := hup.checked
  have hlive' := (store_earlier X cfg (es ++ front) [ev] id hlive).1
  obtain ⟨c₂, hc₂, hle⟩ := (store_number_le X cfg es front id hlive').2 c hc
  obtain rfl := Option.some.inj (hc₁.symm.trans hc₂)
  have hle : n c.epoch "epoch" ≤ n c₁.epoch "epoch" := hle
  have hepoch := hok.epoch
  omega

end Runs

/-- In every run in which each prune names a compaction that covers the records
of the epochs it hands off, a handed-off epoch has none behind the compaction
that its row names: of all records of that log that were ever held under it,
also of those that are removed by now. -/
theorem expired_records_covered (X : Crypto) (cfg : RelayConfig) (id : String) (es : List Event)
    (hes : StepsMeet (World.step X) (CoversHandoffs X id) (World.initial cfg) es)
    (hdel : (storeAfter X cfg es id).deletion = none) {epoch : Nat} {row : HandoffRow}
    (hrow : (storeAfter X cfg es id).handoffs.find? epoch = some row) :
    ∃ comp, (storeAfter X cfg es id).object .compaction row.compactionId = some comp ∧
      ∀ es₁ es₂ k o r i, es = es₁ ++ es₂ →
        (storeAfter X cfg es₁ id).objects.find? (.record, k) = some o → o.body = some r →
        n r "epoch" = epoch → o.logId = some (s comp "log_id") → o.relaySeq = some i →
        i ≤ n comp "covered_through_seq" := by
  have hstart : ¬(((World.initial cfg).store id).handoffs.find? epoch).isSome :=
    fun hsome => by cases hsome
  obtain ⟨es₁, ev, es₂, rfl, hnot, hturn⟩ := run_turns
    (P := fun w : World => ((w.store id).handoffs.find? epoch).isSome) hstart
      (show ((storeAfter X cfg es id).handoffs.find? epoch).isSome by rw [hrow]; rfl)
  have hsplit : es₁ ++ ev :: es₂ = es₁ ++ [ev] ++ es₂ := by simp
  have hdel₂ : (storeAfter X cfg (es₁ ++ [ev] ++ es₂) id).deletion = none := hsplit ▸ hdel
  have hmid := (store_earlier X cfg (es₁ ++ [ev]) es₂ id hdel₂).1
  have hlive := (store_earlier X cfg es₁ [ev] id hmid).1
  obtain ⟨row₁, hrow₁⟩ := Option.isSome_iff_exists.mp hturn
  have hrow₁ : (storeAfter X cfg (es₁ ++ [ev]) id).handoffs.find? epoch = some row₁ := by
    rw [storeAfter, World.after, run_snoc]
    exact hrow₁
  -- the prune that handed the epoch off, and the compaction it named
  obtain ⟨call, c, comp, hact, hid, hroute, hc, hcheck, hcompaction, hhands⟩ :=
    step_handsOff hmid (Option.not_isSome_iff_eq_none.mp hnot) hrow₁
  have hcovers : (storeAfter X cfg es₁ id).CoversEpoch c comp epoch :=
    (stepsMeet_append.mp hes).2.1 call c comp hact hid hroute hc hcheck epoch hhands
  have hok := pruneCheck_ok hcheck
  have hs := ((store_settled X cfg es₁ id).ledger hlive hc).sound
  obtain ⟨row₂, hrow₂, hsame⟩ := store_handoff_stays X cfg (es₁ ++ [ev]) es₂ id hdel₂ hrow₁
  rw [← hsplit] at hrow₂
  obtain rfl := Option.some.inj (hrow.symm.trans hrow₂)
  have holder : epoch < n c.epoch "epoch" := by
    obtain ⟨x, hx, rfl⟩ := hhands.older
    exact olderEpochs_lt hs hx
  -- a record that had its row then is covered, with its body or without
  have covered : ∀ k o i, (storeAfter X cfg es₁ id).objects.find? (.record, k) = some o →
      o.logId = some (s comp "log_id") → o.relaySeq = some i →
      (∀ r, o.body = some r → n r "epoch" = epoch) → i ≤ n comp "covered_through_seq" := by
    intro k o i ho hl hi hepoch
    rw [hok.compaction.logId] at hl
    cases hbody : o.body with
    | some r => exact hcovers k o r i ho hbody (hepoch r hbody) hl hi
    | none =>
        have hkind : o.kind = .record := congrArg Prod.fst (Table.key_of_find? ho : o.key = _)
        obtain ⟨j, hj, hlt⟩ := hs.pruned o (Table.mem_of_find? ho) hkind hbody hl
        have hlt : j < c.minAvailableSeq := hlt
        obtain rfl := Option.some.inj (hj.symm.trans hi)
        have hmin := hok.min_le
        have hthrough := hok.through_le
        omega
  refine ⟨comp, ?_, fun front rest k o r i hfront ho hr hepoch hl hi => ?_⟩
  · obtain ⟨o, ho, hbody⟩ := object_eq_some.mp hok.stored
    have hkey : o.key = (.compaction, s call.value "compaction_id") := Table.key_of_find? ho
    obtain ⟨hkind, hoid⟩ := Prod.mk.inj hkey
    have hcid := ((hs.object_of_find? (L := (storeAfter X cfg es₁ id).ledger c) ho).body comp
      hbody).2
    rw [hkind, hoid] at hcid
    obtain ⟨c', -, hearlier⟩ := (store_earlier X cfg es₁ (ev :: es₂) id hdel).2 c hc
    obtain ⟨o', ho', hbody'⟩ := hearlier.grows.body (by simp [Kind.removable]) ho hbody
    rw [hsame, hcompaction, show s comp "compaction_id" = _ from hcid]
    exact object_eq_some.mpr ⟨o', ho', hbody'⟩
  · obtain ⟨d, hd, -⟩ | ⟨d, hd, -⟩ := List.append_eq_append_iff.mp hfront
    · -- held before the prune or after it
      subst hd
      have hdel' : (storeAfter X cfg (es₁ ++ d) id).deletion = none := by
        rw [hfront] at hdel
        exact (store_earlier X cfg (es₁ ++ d) rest id hdel).1
      obtain ⟨o', ho'⟩ := older_record hdel' hc ho hr (hepoch ▸ holder)
      obtain ⟨o'', ho'', hlater⟩ := object_row_stays X cfg es₁ d id hdel' ho'
      obtain rfl := Option.some.inj (ho.symm.trans ho'')
      have hkind : o'.kind = .record := congrArg Prod.fst (Table.key_of_find? ho' : o'.key = _)
      obtain ⟨hl', hi'⟩ := hlater.placed ((hs.object_of_find?
        (L := (storeAfter X cfg es₁ id).ledger c) ho').record hkind)
      refine covered k o' i ho' (hl' ▸ hl) (hi' ▸ hi) fun r' hr' => ?_
      obtain hbody | ⟨hbody, -⟩ := hlater.body
      · rw [hr', hr] at hbody
        rw [← Option.some.inj hbody]
        exact hepoch
      · rw [hr] at hbody
        cases hbody
    · subst hd
      obtain ⟨o', ho', hlater⟩ := object_row_stays X cfg front d id hlive ho
      obtain ⟨hl', hi'⟩ := hlater.placed (by rw [hl]; rfl)
      refine covered k o' i ho' (hl' ▸ hl) (hi' ▸ hi) fun r' hr' => ?_
      obtain hbody | ⟨hbody, -⟩ := hlater.body
      · rw [hr', hr] at hbody
        rw [Option.some.inj hbody]
        exact hepoch
      · rw [hr'] at hbody
        cases hbody

namespace Sample

/-- After `es'` the first epoch has expired; the record that the first device
uploaded under it is the sixth entry of the log of the handoff's compaction, and
was held after `es`. The compaction covers `covered` entries. -/
def handedOff (es es' : List Event) (covered : Nat) : Bool :=
  ((storeAfter crypto cfg es' chainId).handoffs.find? 0).any fun row => row.expired &&
    ((storeAfter crypto cfg es' chainId).object .compaction row.compactionId).any fun comp =>
      decide (n comp "covered_through_seq" = covered) &&
        ((storeAfter crypto cfg es chainId).objects.find? (.record, uid 80)).any fun o =>
          o.body.any (fun r => decide (n r "epoch" = 0)) &&
            decide (o.logId = some (s comp "log_id")) && decide (o.relaySeq = some 6)

theorem handedOff_of {es es' : List Event} {covered : Nat} (h : handedOff es es' covered = true) :
    ∃ row comp o r, (storeAfter crypto cfg es' chainId).handoffs.find? 0 = some row ∧
      row.expired = true ∧
      (storeAfter crypto cfg es' chainId).object .compaction row.compactionId = some comp ∧
      n comp "covered_through_seq" = covered ∧
      (storeAfter crypto cfg es chainId).objects.find? (.record, uid 80) = some o ∧
      o.body = some r ∧ n r "epoch" = 0 ∧ o.logId = some (s comp "log_id") ∧
      o.relaySeq = some 6 := by
  simp only [handedOff, Option.any_eq_true, Bool.and_eq_true, decide_eq_true_eq] at h
  obtain ⟨row, hrow, hexp, comp, hcomp, hcovered, o, ho, ⟨⟨r, hr, hepoch⟩, hl⟩, hi⟩ := h
  exact ⟨row, comp, o, r, hrow, hexp, hcomp, hcovered, ho, hr, hepoch, hl, hi⟩

/-- The log is pruned, and the first epoch expires. -/
def coveredRun : List Event := recordedRun ++ pruning ++ [.retention (oracle 1600 70)]

theorem coveredRun_facts :
    (stepsAll (World.step crypto) (fun w ev => (w.acting ev).all fun call =>
        !decide (call.route = .prune) || ((w.store call.chain).objects.rows.all (fun o =>
          !decide (o.kind = .record) || o.relaySeq.all (· ≤ 6)) &&
          ((w.store call.chain).object .compaction (s call.value "compaction_id")).all fun comp =>
            decide (n comp "covered_through_seq" = 6))) (.initial cfg) coveredRun &&
      (storeAfter crypto cfg coveredRun chainId).deletion.isNone &&
      handedOff recordedRun coveredRun 6) = true := by
  decide +kernel

/-- As `pruning`, to a compaction that covers one entry less. -/
def shortPruning : List Event :=
  perform 3 30 rotationRequest ++ upload 4 4 1 (partsRequest 2 [part1]) ++
    perform 5 50 (snapshotRequest (compaction1 (logAfter genesisRun) 5)) ++
    perform 6 51 (pruneRequest 5) ++ [.retention (oracle 1600 70)]

theorem shortPruning_facts :
    ((storeAfter crypto cfg (recordedRun ++ shortPruning) chainId).deletion.isNone &&
      handedOff (recordedRun ++ shortPruning) (recordedRun ++ shortPruning) 5) = true := by
  decide +kernel

end Sample

/-- The record under the epoch that expired is covered. -/
theorem expired_records_covered_first : ∃ row comp o,
    (storeAfter Sample.crypto Sample.cfg Sample.coveredRun Sample.chainId).handoffs.find? 0 =
      some row ∧ row.expired = true ∧
    (storeAfter Sample.crypto Sample.cfg Sample.coveredRun Sample.chainId).object .compaction
      row.compactionId = some comp ∧
    (storeAfter Sample.crypto Sample.cfg Sample.recordedRun Sample.chainId).objects.find?
      (.record, Sample.uid 80) = some o ∧ o.relaySeq = some 6 ∧
    6 ≤ n comp "covered_through_seq" := by
  have hfacts := Sample.coveredRun_facts
  simp only [Bool.and_eq_true, Option.isNone_iff_eq_none] at hfacts
  obtain ⟨⟨hall, hdel⟩, hhanded⟩ := hfacts
  obtain ⟨row, comp, o, r, hrow, hexp, hcomp, -, ho, hr, hepoch, hl, hi⟩ :=
    Sample.handedOff_of hhanded
  have hmeet : StepsMeet (World.step Sample.crypto) (CoversHandoffs Sample.crypto Sample.chainId)
      (World.initial Sample.cfg) Sample.coveredRun := by
    refine stepsMeet_of_all (fun w ev hall call c comp hact hid hroute _ hcheck epoch _ k o r i ho
      _ _ _ hi => ?_) hall
    rw [hact, Option.all_some, hroute, hid] at hall
    simp only [decide_true, Bool.not_true, Bool.false_or, Bool.and_eq_true] at hall
    have hkind : o.kind = .record := congrArg Prod.fst (Table.key_of_find? ho : o.key = _)
    have hrow := List.all_eq_true.mp hall.1 o (Table.mem_of_find? ho)
    have hcomp := hall.2
    rw [(pruneCheck_ok hcheck).stored, Option.all_some, decide_eq_true_eq] at hcomp
    rw [hkind, hi] at hrow
    rw [hcomp]
    simpa using hrow
  obtain ⟨comp', hcomp', hcovered⟩ := expired_records_covered Sample.crypto Sample.cfg
    Sample.chainId Sample.coveredRun hmeet hdel hrow
  obtain rfl := Option.some.inj (hcomp.symm.trans hcomp')
  exact ⟨row, comp, o, hrow, hexp, hcomp, ho, hi, hcovered Sample.recordedRun _ _ o r 6
    (List.append_assoc ..) ho hr hepoch hl hi⟩

/-- The compaction of the handoff covers the envelopes of the first epoch, and
not the record behind them. -/
theorem uncovered_handoff : ∃ row comp o r,
    (storeAfter Sample.crypto Sample.cfg (Sample.recordedRun ++ Sample.shortPruning)
      Sample.chainId).deletion = none ∧
    (storeAfter Sample.crypto Sample.cfg (Sample.recordedRun ++ Sample.shortPruning)
      Sample.chainId).handoffs.find? 0 = some row ∧ row.expired = true ∧
    (storeAfter Sample.crypto Sample.cfg (Sample.recordedRun ++ Sample.shortPruning)
      Sample.chainId).object .compaction row.compactionId = some comp ∧
    (storeAfter Sample.crypto Sample.cfg (Sample.recordedRun ++ Sample.shortPruning)
      Sample.chainId).objects.find? (.record, Sample.uid 80) = some o ∧ o.body = some r ∧
    n r "epoch" = 0 ∧ o.logId = some (s comp "log_id") ∧ o.relaySeq = some 6 ∧
    n comp "covered_through_seq" < 6 := by
  obtain ⟨hdel, hhanded⟩ := Bool.and_eq_true_iff.mp Sample.shortPruning_facts
  obtain ⟨row, comp, o, r, hrow, hexp, hcomp, hcovered, ho, hr, hepoch, hl, hi⟩ :=
    Sample.handedOff_of hhanded
  exact ⟨row, comp, o, r, Option.isNone_iff_eq_none.mp hdel, hrow, hexp, hcomp, ho, hr, hepoch,
    hl, hi, by omega⟩

end PallaSync
