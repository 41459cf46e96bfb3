import PallaSync.Membership

/-!
# Expired envelopes

Envelopes lose their bodies, and only to expiry: one that is without its body
was held with it in an earlier state of the run, under the same digest, and its
epoch was handed off by a prune and has expired since (`removed_envelope`).
Handed-off epochs are older than the chain's (`handoffs_older`), so that the
envelopes of the current epoch are all there, and who is seated in the registry
can read it (`membership_delivered`).
-/

namespace PallaSync

open Atomic Machine

/-! ## Handoffs along moves -/

/-- The epoch has expired. -/
def Ledger.Expired (L : Ledger) (epoch : Nat) : Prop :=
  ∃ row, L.handoffs.find? epoch = some row ∧ row.expired = true

/-- The envelope has a row without its body. -/
def Ledger.Spent (L : Ledger) (id : String) : Prop :=
  ∃ o, L.objects.find? (.envelope, id) = some o ∧ o.body = none

/-- The rows of envelopes are those of `L`, and what became of their bodies is
expiry. -/
def Wears (L L' : Ledger) : Prop :=
  ∀ id o', L'.objects.find? (.envelope, id) = some o' →
    ∃ o, L.objects.find? (.envelope, id) = some o ∧ o'.objectHash = o.objectHash ∧
      (o'.body = o.body ∨
        o'.body = none ∧ ∃ b, o.body = some b ∧ L'.Expired (n b "epoch"))

section Moves

variable {X : Crypto} {L M L' : Ledger} {m : Move} {ms : List Move} {id : String} {epoch : Nat}

/-- The handoff of an epoch stays, to the same compaction. -/
theorem Step.handoff_stays (h : Step X m L L') {row : HandoffRow}
    (hrow : L.handoffs.find? epoch = some row) :
    ∃ row', L'.handoffs.find? epoch = some row' ∧ row'.compactionId = row.compactionId ∧
      (row.expired = true → row'.expired = true) := by
  by_cases ho : m.ordinary = true
  · exact ⟨row, by rw [(h.sameTerms ho).handoffs]; exact hrow, rfl, id⟩
  · cases h with
    | setEpoch | found _ _ | reincarnate _ _ => exact ⟨row, hrow, rfl, id⟩
    | prune _ _ _ hh _ => exact ⟨row, by rw [hh]; exact hrow, rfl, id⟩
    | handoff hh _ =>
        refine ⟨row, ?_, rfl, id⟩
        rw [hh, hrow]
        split <;> rfl
    | expire _ _ hh _ =>
        refine ⟨_, by rw [hh, hrow]; rfl, ?_, fun hexp => ?_⟩
        · dsimp only
          split <;> rfl
        · dsimp only
          split
          · rfl
          · exact hexp
    | evidence hw => exact ⟨row, by rw [hw.sameTerms.handoffs]; exact hrow, rfl, id⟩
    | log _ _ | enlist _ _ | partAgain | part _ | stage _ _ | revoke _ | activate _ =>
        exact absurd rfl ho

/-- Expiry is final. -/
theorem Step.expired (h : Step X m L L') (he : L.Expired epoch) : L'.Expired epoch := by
  obtain ⟨row, hrow, hexp⟩ := he
  obtain ⟨row', hrow', -, hstays⟩ := h.handoff_stays hrow
  exact ⟨row', hrow', hstays hexp⟩

theorem Steps.expired (h : Steps X ms L L') (he : L.Expired epoch) : L'.Expired epoch :=
  h.preserves (C := fun _ => True) (fun _ _ _ _ hs => hs.expired) (fun _ _ => trivial) he

theorem Logged.spent {k : Kind} {v : Json} {entry : Option LogEntry} {r : Receipt}
    (h : Logged X k v entry r L L') (hs : L'.Spent id) : L.Spent id := by
  cases h with
  | again _ => exact hs
  | fresh hf =>
      obtain ⟨o', ho', hb⟩ := hs
      rw [hf.objects] at ho'
      split at ho'
      · cases ho : L.objects.find? (.envelope, id) with
        | none =>
            rw [ho] at ho'
            obtain rfl := Option.some.inj ho'
            cases hb
        | some o =>
            rw [ho, adoptedRow_some] at ho'
            refine ⟨o, ho, ?_⟩
            rw [← hb, ← Option.some.inj ho']
            split <;> rfl
      · exact ⟨o', ho', hb⟩

/-- Only expiry removes the body of an envelope. -/
theorem Step.spent (h : Step X m L L') (hm : ∀ e, m ≠ .expire e) (hs : L'.Spent id) :
    L.Spent id := by
  cases h with
  | log _ hl => exact hl.spent hs
  | enlist hl hr =>
      rw [hr.rest] at hs
      exact hl.spent hs
  | partAgain | setEpoch | found _ _ | reincarnate _ _ => exact hs
  | part hp =>
      obtain ⟨o', ho', hb⟩ := hs
      rw [hp.objects, if_neg (by simp)] at ho'
      exact ⟨o', ho', hb⟩
  | evidence hw =>
      rw [Ledger.Spent, hw.objects] at hs
      exact hs
  | stage _ hst =>
      obtain ⟨o', ho', hb⟩ := hs
      rw [hst.objects] at ho'
      split at ho'
      · cases ho : L.objects.find? (.envelope, id) with
        | none =>
            rw [ho] at ho'
            obtain rfl := Option.some.inj ho'
            cases hb
        | some o =>
            rw [ho] at ho'
            obtain rfl := Option.some.inj ho'
            exact ⟨_, ho, hb⟩
      · exact ⟨o', ho', hb⟩
  | revoke hw | activate hw =>
      rw [hw.rest] at hs
      exact hs
  | prune hb _ _ _ _ =>
      obtain ⟨o', ho', hbody⟩ := hs
      rw [hb.objects] at ho'
      obtain ⟨o, ho, rfl⟩ := Option.map_eq_some_iff.mp ho'
      have hkind : o.kind = .envelope := congrArg Prod.fst (Table.key_of_find? ho : o.key = _)
      rw [if_neg (by simp [ObjectRow.prunable, hkind])] at hbody
      exact ⟨o, ho, hbody⟩
  | handoff _ he =>
      rw [he] at hs
      exact hs
  | expire _ _ _ _ => exact absurd rfl (hm _)

theorem Steps.spent (h : Steps X ms L L') (hms : ∀ m ∈ ms, ∀ e, m ≠ .expire e)
    (hs : L'.Spent id) : L.Spent id := by
  induction h with
  | nil => exact hs
  | cons hm _ ih =>
      exact hm.spent (hms _ List.mem_cons_self)
        (ih (fun m hmem => hms m (List.mem_cons_of_mem _ hmem)) hs)

theorem Ordinary.spent (h : Ordinary X L L') (hs : L'.Spent id) : L.Spent id := by
  obtain ⟨ms, hms, hsteps⟩ := h
  refine hsteps.spent (fun m hm e he => ?_) hs
  have hord := hms m hm
  rw [he] at hord
  cases hord

theorem Wears.of_objects (h : ∀ id, L'.objects.find? (.envelope, id) =
    L.objects.find? (.envelope, id)) : Wears L L' := fun id o' ho' =>
  ⟨o', (h id) ▸ ho', rfl, .inl rfl⟩

theorem Wears.trans (h : Wears L M) (h' : Wears M L')
    (hexp : ∀ e, M.Expired e → L'.Expired e) : Wears L L' := fun id o'' ho'' => by
  obtain ⟨o', ho', hhash', hbody'⟩ := h' id o'' ho''
  obtain ⟨o, ho, hhash, hbody⟩ := h id o' ho'
  refine ⟨o, ho, hhash'.trans hhash, ?_⟩
  obtain hsame' | ⟨hnone', b, hb, he⟩ := hbody'
  · obtain hsame | ⟨hnone, b, hb, he⟩ := hbody
    · exact .inl (hsame'.trans hsame)
    · exact .inr ⟨hsame'.trans hnone, b, hb, hexp _ he⟩
  · obtain hsame | ⟨hnone, -⟩ := hbody
    · exact .inr ⟨hnone', b, hsame ▸ hb, he⟩
    · rw [hnone] at hb
      cases hb

/-- A move that brings no envelope only wears those there are. -/
theorem Step.wears (h : Step X m L L') (hm : ∀ v, m.brings ≠ some (.envelope, v)) : Wears L L' := by
  cases h with
  | @log kind v _ _ _ _ _ hl =>
      cases hl with
      | again _ => exact .of_objects fun _ => rfl
      | fresh hf =>
          refine .of_objects fun id => ?_
          rw [hf.objects, if_neg fun he => ?_]
          exact hm v (by rw [Move.brings, ← (Prod.mk.inj he).1])
  | enlist hl hr =>
      have ho : ∀ id, L'.objects.find? (.envelope, id) = L.objects.find? (.envelope, id) := by
        intro id
        rw [hr.rest]
        cases hl with
        | again _ => rfl
        | fresh hf => rw [hf.objects, if_neg (by simp)]
      exact .of_objects ho
  | partAgain | setEpoch | found _ _ | reincarnate _ _ => exact .of_objects fun _ => rfl
  | part hp => exact .of_objects fun id => by rw [hp.objects, if_neg (by simp)]
  | evidence hw => exact .of_objects fun id => by rw [hw.objects]
  | @stage kind v _ _ _ hst =>
      refine .of_objects fun id => ?_
      rw [hst.objects, if_neg fun he => ?_]
      exact hm v (by rw [Move.brings, ← (Prod.mk.inj he).1])
  | revoke hw | activate hw => exact .of_objects fun id => by rw [hw.rest]
  | handoff _ he => exact .of_objects fun id => by rw [he]
  | prune hb _ _ _ _ =>
      refine .of_objects fun id => ?_
      rw [hb.objects]
      cases ho : L.objects.find? (.envelope, id) with
      | none => rfl
      | some o =>
          have hkind : o.kind = .envelope := congrArg Prod.fst (Table.key_of_find? ho : o.key = _)
          rw [Option.map_some, if_neg (by simp [ObjectRow.prunable, hkind])]
  | @expire e _ _ hrow hb hh _ =>
      intro id o' ho'
      rw [hb.objects] at ho'
      obtain ⟨o, ho, rfl⟩ := Option.map_eq_some_iff.mp ho'
      refine ⟨o, ho, by split <;> rfl, ?_⟩
      split
      · rename_i hexp
        simp only [ObjectRow.expirable, Bool.and_eq_true, Option.any_eq_true, beq_iff_eq] at hexp
        obtain ⟨-, b, hbody, hepoch⟩ := hexp
        obtain ⟨row, hrow⟩ := Option.isSome_iff_exists.mp hrow
        have hn : n b "epoch" = e := by rw [n, hepoch]; rfl
        refine .inr ⟨rfl, b, hbody, _, by rw [hn, hh, hrow]; rfl, ?_⟩
        dsimp only
        rw [if_pos (Table.key_of_find? hrow)]
      · exact .inl rfl

theorem Steps.wears (h : Steps X ms L L')
    (hms : ∀ m ∈ ms, ∀ v, m.brings ≠ some (.envelope, v)) : Wears L L' :=
  h.preserves (P := Wears L) (fun _ _ _ hm hs hL => hL.trans (hs.wears hm) fun _ => hs.expired) hms
    (.of_objects fun _ => rfl)

end Moves

/-! ## Passages -/

section Passages

variable {X : Crypto} {R : Relay} {cause : Option Call} {a : Cell} {L L' : Ledger}
  {cfg : RelayConfig} {es es' : List Event} {id k : String}

theorem Wears.spent (h : Wears L L') (hs : L'.Spent k) : L.Spent k ∨
    ∃ o o' b, L.objects.find? (.envelope, k) = some o ∧ o.body = some b ∧
      L'.objects.find? (.envelope, k) = some o' ∧ o'.objectHash = o.objectHash ∧
      L'.Expired (n b "epoch") := by
  obtain ⟨o', ho', hnone⟩ := hs
  obtain ⟨o, ho, hhash, hsame | ⟨-, b, hb, he⟩⟩ := h k o' ho'
  · exact .inl ⟨o, ho, hsame ▸ hnone⟩
  · exact .inr ⟨o, o', b, ho, hb, ho', hhash, he⟩

/-- A passage that leaves an envelope without its body found it so, or expired
its epoch. -/
theorem Passage.spent (h : Passage R cause a L') (hs : L'.Spent k) : a.ledger.Spent k ∨
    ∃ o o' b, a.ledger.objects.find? (.envelope, k) = some o ∧ o.body = some b ∧
      L'.objects.find? (.envelope, k) = some o' ∧ o'.objectHash = o.objectHash ∧
      L'.Expired (n b "epoch") := by
  cases h with
  | ordinary ho => exact .inl (ho.spent hs)
  | rotated _ _ ho _ he =>
      subst he
      exact .inl (ho.spent hs)
  | pruned _ _ hp he =>
      subst he
      refine ((hp.first.steps.append hp.second.steps).wears fun m hm => ?_).spent hs
      simp only [List.cons_append, List.nil_append, List.append_assoc, List.mem_cons,
        List.mem_append, List.mem_map, List.not_mem_nil, or_false] at hm
      obtain rfl | rfl | ⟨_, -, rfl⟩ | ⟨_, -, rfl⟩ | rfl := hm <;> simp [Move.brings]
  | expired hsteps =>
      refine (hsteps.wears fun m hm => ?_).spent hs
      obtain ⟨_, -, rfl⟩ := List.mem_map.mp hm
      simp [Move.brings]
  | reseeded _ _ _ _ ho _ ho' => exact .inl (ho.spent (ho'.spent hs))

/-- What is handed off: an epoch before the chain's, to a compaction that is
stored. -/
structure HandoffOk (L : Ledger) (row : HandoffRow) : Prop where
  older : row.epoch < n L.chain.epoch "epoch"
  compaction : ∃ o comp, L.objects.find? (.compaction, row.compactionId) = some o ∧
    o.body = some comp

def Ledger.Handoffs (L : Ledger) : Prop :=
  ∀ epoch row, L.handoffs.find? epoch = some row → HandoffOk L row

theorem HandoffOk.mono {row : HandoffRow} (h : HandoffOk L row) (hg : Grows L L')
    (hle : n L.chain.epoch "epoch" ≤ n L'.chain.epoch "epoch") : HandoffOk L' row := by
  obtain ⟨o, comp, ho, hb⟩ := h.compaction
  obtain ⟨o', ho', hb'⟩ := hg.body (by simp [Kind.removable]) ho hb
  exact ⟨h.older.trans_le hle, o', comp, ho', hb'⟩

theorem Ledger.Handoffs.mono (h : L.Handoffs) (hg : Grows L L')
    (hle : n L.chain.epoch "epoch" ≤ n L'.chain.epoch "epoch")
    (hh : L'.handoffs = L.handoffs) : L'.Handoffs := fun epoch row hrow =>
  (h epoch row (hh ▸ hrow)).mono hg hle

theorem Ledger.Handoffs.ordinary (h : L.Handoffs) (ho : Ordinary X L L') : L'.Handoffs :=
  h.mono ho.grows (by rw [ho.sameTerms.epoch]) ho.sameTerms.handoffs

/-- Expiring epochs only marks their handoffs. -/
theorem Steps.expire_handoffs {ms : List Nat} (h : Steps X (ms.map .expire) L L')
    (hL : L.Handoffs) : L'.Handoffs := by
  refine h.preserves (P := Ledger.Handoffs) (C := fun m => ∃ e, m = .expire e)
    (fun m M M' ⟨e, he⟩ hs hM epoch row hrow => ?_) (fun m hm => ?_) hL
  · have hg := hs.grows
    subst he
    cases hs with
    | expire _ _ hh hc =>
        rw [hh] at hrow
        obtain ⟨row', hrow', rfl⟩ := Option.map_eq_some_iff.mp hrow
        have hok := (hM epoch row' hrow').mono hg (by rw [hc])
        split
        · exact ⟨hok.older, hok.compaction⟩
        · exact hok
  · obtain ⟨e, -, rfl⟩ := List.mem_map.mp hm
    exact ⟨e, rfl⟩

/-- Handing off adds rows for what is older. -/
theorem Steps.handoff_handoffs {rows : List HandoffRow} (h : Steps X (rows.map .handoff) L L')
    (hrows : ∀ row ∈ rows, HandoffOk L row) (hL : L.Handoffs) :
    L'.Handoffs ∧ L'.chain = L.chain := by
  induction rows generalizing L with
  | nil =>
      obtain _ | _ := h
      exact ⟨hL, rfl⟩
  | cons row rows ih =>
      rw [List.map_cons] at h
      cases h with
      | @cons _ _ _ M _ hm hs =>
          have hg := hm.grows
          cases hm with
          | handoff hh he =>
              have hc : M.chain = L.chain := by rw [he]
              have hlift : ∀ row, HandoffOk L row → HandoffOk M row := fun row hok =>
                hok.mono hg (by rw [hc])
              obtain ⟨hlast, hchain⟩ := ih hs
                (fun x hx => hlift x (hrows x (List.mem_cons_of_mem _ hx))) fun epoch x hx => by
                  rw [hh] at hx
                  split at hx
                  · cases hold : L.handoffs.find? epoch with
                    | none =>
                        rw [hold] at hx
                        obtain rfl := Option.some.inj hx
                        exact hlift _ (hrows _ List.mem_cons_self)
                    | some old =>
                        rw [hold] at hx
                        obtain rfl := Option.some.inj hx
                        exact hlift _ (hL epoch old hold)
                  · exact hlift _ (hL epoch x hx)
              exact ⟨hlast, hchain.trans hc⟩

/-- An epoch that `olderEpochs` lists is older. -/
theorem olderEpochs_lt {st : Store} {c : Chain} (hs : Sound X (st.ledger c)) {epoch : Json}
    (h : epoch ∈ olderEpochs st c) : n epoch "epoch" < n c.epoch "epoch" := by
  obtain ⟨o, ho, hb⟩ := List.mem_filterMap.mp h
  split at hb
  · rename_i hold
    obtain ⟨-, hid⟩ := (hs.objects o ho).body epoch hb
    rw [hold.1] at hid
    have hlt := hold.2
    rw [← hid, show objectId epoch .epoch = toString (n epoch "epoch") from rfl,
      castInteger_toString] at hlt
    exact hlt
  · cases hb

/-- What a prune hands off is older than the chain's epoch, to the compaction of
the prune. -/
theorem Pruned.handoffs {v comp : Json} {rows : List HandoffRow} {expired : List Nat}
    {mid b : Cell} (h : Pruned R v comp rows expired a mid b) (hs : Sound R.crypto a.ledger)
    (hL : a.ledger.Handoffs) : b.ledger.Handoffs := by
  have hfirst := h.first.steps
  have hsteady : Steady a.ledger mid.ledger := hfirst.steady (by simp [Move.steady])
  have hmid : Sound R.crypto mid.ledger := hs.steps hfirst
  have hsame : mid.ledger.handoffs = a.ledger.handoffs := by
    obtain _ | ⟨hlog, hrest⟩ := hfirst
    obtain _ | ⟨hprune, hnil⟩ := hrest
    obtain _ | _ := hnil
    cases hprune with
    | prune _ _ _ hh _ => exact hh.trans (hlog.sameTerms rfl).handoffs
  obtain ⟨o, ho, hbody⟩ := object_eq_some.mp (pruneCheck_ok h.checked).stored
  have hid : s comp "compaction_id" = s v "compaction_id" := by
    have hkey : o.key = (.compaction, s v "compaction_id") := Table.key_of_find? ho
    obtain ⟨hkind, hoid⟩ := Prod.mk.inj hkey
    obtain ⟨-, hcid⟩ := (hs.object_of_find? (L := a.ledger) ho).body comp hbody
    rw [hkind, hoid] at hcid
    exact hcid
  have hrows : ∀ row ∈ rows, HandoffOk mid.ledger row := fun row hrow => by
    obtain ⟨epoch, hepoch, hnumber⟩ := (h.handedOff row hrow).older
    obtain ⟨o', ho', hbody'⟩ := hfirst.grows.body (by simp [Kind.removable]) ho hbody
    refine ⟨hnumber ▸ olderEpochs_lt hmid hepoch, o', comp, ?_, hbody'⟩
    rw [(h.handedOff row hrow).compactionId, hid]
    exact ho'
  obtain ⟨N, hbefore, hlast⟩ := Steps.of_append h.second.steps
  obtain ⟨N', hhand, hexp⟩ := Steps.of_append hbefore
  have hstart : mid.ledger.Handoffs := hL.mono hfirst.grows (by rw [hsteady.epoch]) hsame
  exact (hexp.expire_handoffs (hhand.handoff_handoffs hrows hstart).1).ordinary
    (.of_steps hlast (by simp [Move.ordinary]))

theorem Passage.handoffs (h : Passage R cause a L') (hs : Sound R.crypto a.ledger)
    (hL : a.ledger.Handoffs) : L'.Handoffs := by
  cases h with
  | ordinary ho => exact hL.ordinary ho
  | rotated _ _ ho hnext he =>
      subst he
      exact (hL.ordinary ho).mono (.of_eq rfl rfl rfl rfl)
        (by rw [ho.sameTerms.epoch]; exact hnext.number ▸ Nat.le_succ _) rfl
  | pruned _ _ hp he =>
      subst he
      exact hp.handoffs hs hL
  | expired hsteps => exact hsteps.expire_handoffs hL
  | @reseeded call logId notice N _ _ _ _ ho hnext ho' =>
      have hstart : Ledger.Handoffs (a.store.ledger
          (a.chain.reseeded R.crypto (call.value.get "parameters") logId notice)) :=
        hL.mono (.of_eq rfl rfl rfl rfl) le_rfl rfl
      have hnew : (N.atEpoch (call.value.get "epoch")).Handoffs :=
        (hstart.ordinary ho).mono (.of_eq rfl rfl rfl rfl)
          (by rw [ho.sameTerms.epoch]; exact hnext.number ▸ Nat.le_succ _) rfl
      exact hnew.ordinary ho'

/-! ## Runs -/

/-- Handed-off epochs are older than the chain's, and their compactions are
stored. -/
theorem store_handoffs (X : Crypto) (cfg : RelayConfig) (es : List Event) (id : String) :
    (storeAfter X cfg es id).Holds Ledger.Handoffs :=
  (ledger_invariant (P := Ledger.Handoffs)
    (fun L L' _ hb ho epoch row hrow => by
      rw [ho.sameTerms.handoffs, hb.handoffs] at hrow
      cases hrow)
    (fun R _ _ _ hX _ hp hs hL => hp.handoffs (hX ▸ hs.sound) hL) es).imp fun _ h => h.2

/-- What has expired stays so. -/
theorem store_expired (X : Crypto) (cfg : RelayConfig) (es es' : List Event) (id : String) :
    (storeAfter X cfg es id).Keeps (fun L L' => ∀ e, L.Expired e → L'.Expired e)
      (storeAfter X cfg (es ++ es') id) :=
  ledger_keeps (K := fun L L' => ∀ e, L.Expired e → L'.Expired e) (fun _ _ _ h => h)
    (fun _ _ _ _ _ _ _ _ hK hp e he => by
      obtain ⟨ms, hs, -⟩ := hp.steps
      exact hs.expired (hK e he)) es es'

/-- The step after which an envelope is without its body expired its epoch. -/
theorem step_spends (X : Crypto) (cfg : RelayConfig) (es : List Event) (ev : Event)
    (id k : String) (hdel : (storeAfter X cfg (es ++ [ev]) id).deletion = none)
    (hbefore : ¬((storeAfter X cfg es id).ledger .unset).Spent k)
    (hafter : ((storeAfter X cfg (es ++ [ev]) id).ledger .unset).Spent k) :
    ∃ c c' o o' b, (storeAfter X cfg es id).chain = some c ∧
      (storeAfter X cfg (es ++ [ev]) id).chain = some c' ∧
      (storeAfter X cfg es id).objects.find? (.envelope, k) = some o ∧ o.body = some b ∧
      (storeAfter X cfg (es ++ [ev]) id).objects.find? (.envelope, k) = some o' ∧
      o'.objectHash = o.objectHash ∧
      ((storeAfter X cfg (es ++ [ev]) id).ledger c').Expired (n b "epoch") := by
  have hnext : storeAfter X cfg (es ++ [ev]) id = ((World.after X cfg es).step X ev).store id := by
    rw [storeAfter, World.after, run_snoc]
    rfl
  rw [hnext] at hdel hafter ⊢
  obtain hsame | ⟨R, cause, hc, -⟩ := step_commitOn (X := X) (after_bounded X cfg es) ev id
  · rw [hsame] at hafter
    exact absurd hafter hbefore
  · obtain rfl := hc.crypto
    obtain ⟨-, hcourse⟩ := hc.commit.course hdel hc.bound (store_settled R.crypto cfg es id)
    cases hcourse with
    | absent _ _ hl =>
        have h := congrArg Ledger.objects (hl .unset)
        rw [Ledger.Spent, h] at hafter
        exact absurd hafter hbefore
    | founded _ _ _ _ ho => exact absurd (ho.spent hafter) hbefore
    | @passed c c' hthere hthere' hp =>
        obtain hold | ⟨o, o', b, ho, hb, ho', hhash, he⟩ := hp.spent (k := k) hafter
        · exact absurd hold hbefore
        · exact ⟨c, c', o, o', b, hthere, hthere', ho, hb, ho', hhash, he⟩

end Passages

/-- An envelope that is there without its body was held with it in an earlier
state, and its epoch has expired since. -/
theorem envelope_spent (X : Crypto) (cfg : RelayConfig) (es : List Event) (id k : String)
    (c : Chain) (o : ObjectRow) (hdel : (storeAfter X cfg es id).deletion = none)
    (hc : (storeAfter X cfg es id).chain = some c)
    (ho : (storeAfter X cfg es id).objects.find? (.envelope, k) = some o) (hbody : o.body = none) :
    ∃ es₁ es₂ b row comp, es = es₁ ++ es₂ ∧
      (storeAfter X cfg es₁ id).object .envelope k = some b ∧ X.objectHash b = o.objectHash ∧
      (storeAfter X cfg es id).handoffs.find? (n b "epoch") = some row ∧ row.expired = true ∧
      (storeAfter X cfg es id).object .compaction row.compactionId = some comp ∧
      n b "epoch" < n c.epoch "epoch" := by
  have hstart : ¬(((World.initial cfg).store id).ledger .unset).Spent k := by
    rintro ⟨_, h, _⟩
    cases h
  have hend : ((storeAfter X cfg es id).ledger .unset).Spent k := ⟨o, ho, hbody⟩
  obtain ⟨es₁, ev, es₂, rfl, hnot, hturn⟩ :=
    run_turns (P := fun w : World => ((w.store id).ledger .unset).Spent k) hstart hend
  have hsplit : es₁ ++ ev :: es₂ = (es₁ ++ [ev]) ++ es₂ := by simp
  have hturn : ((storeAfter X cfg (es₁ ++ [ev]) id).ledger .unset).Spent k := by
    rw [storeAfter, World.after, run_snoc]
    exact hturn
  rw [hsplit] at hdel hc ho ⊢
  have hmid := (store_earlier X cfg (es₁ ++ [ev]) es₂ id hdel).1
  obtain ⟨c₁, c₂, o₁, o₂, b, hc₁, hc₂, ho₁, hb, ho₂, hhash, hexp⟩ :=
    step_spends X cfg es₁ ev id k hmid hnot hturn
  obtain ⟨c', hc', hearlier⟩ := (store_earlier X cfg (es₁ ++ [ev]) es₂ id hdel).2 c₂ hc₂
  obtain rfl := Option.some.inj (hc.symm.trans hc')
  obtain ⟨o₃, ho₃, hlater⟩ := hearlier.grows.objects _ o₂ ho₂
  obtain rfl := Option.some.inj (ho₃.symm.trans ho)
  have hfirst := (store_earlier X cfg es₁ [ev] id hmid).1
  have hsound := ((store_settled X cfg es₁ id).ledger hfirst hc₁).sound
  have hstored := hsound.object_of_find? (L := (storeAfter X cfg es₁ id).ledger c₁) ho₁
  obtain ⟨hdigest, -⟩ := hstored.body b hb
  obtain ⟨c', hc', hkept⟩ := (store_expired X cfg (es₁ ++ [ev]) es₂ id hdel).2 c₂ hc₂
  obtain rfl := Option.some.inj (hc.symm.trans hc')
  obtain ⟨row, hrow, hexpired⟩ := hkept _ hexp
  have hkey : row.epoch = n b "epoch" := Table.key_of_find? hrow
  have hok := (store_handoffs X cfg (es₁ ++ [ev] ++ es₂) id).ledger hdel hc _ row hrow
  obtain ⟨oc, comp, hoc, hcomp⟩ := hok.compaction
  exact ⟨es₁, ev :: es₂, b, row, comp, hsplit.symm, object_eq_some.mpr ⟨o₁, ho₁, hb⟩,
    hdigest.trans (hlater.objectHash.trans hhash).symm, hrow, hexpired,
    object_eq_some.mpr ⟨oc, hoc, hcomp⟩, hkey ▸ hok.older⟩

/-- A row of an object stays, under its digest. -/
theorem object_row_stays (X : Crypto) (cfg : RelayConfig) (es es' : List Event) (id : String)
    {q : Kind × String} {o : ObjectRow} (hdel : (storeAfter X cfg (es ++ es') id).deletion = none)
    (ho : (storeAfter X cfg es id).objects.find? q = some o) :
    ∃ o', (storeAfter X cfg (es ++ es') id).objects.find? q = some o' ∧ o.Later o' := by
  obtain ⟨hbefore, hkeeps⟩ := store_earlier X cfg es es' id hdel
  cases hc : (storeAfter X cfg es id).chain with
  | none =>
      have hnone := ((store_settled X cfg es id).bare hbefore hc).objects q
      cases hnone.symm.trans ho
  | some c =>
      obtain ⟨c', -, hearlier⟩ := hkeeps c hc
      exact hearlier.grows.objects q o ho

/-- The row of an envelope stays, under its digest and with the body it had or
none. One that is without its body was held with it in an earlier state; its
epoch was handed off to a stored compaction and has expired, and is older than
the chain's. -/
theorem removed_envelope (X : Crypto) (cfg : RelayConfig) (es : List Event) (id : String)
    (c : Chain) (hdel : (storeAfter X cfg es id).deletion = none)
    (hc : (storeAfter X cfg es id).chain = some c) :
    (∀ es₁ es₂ k o₁, es = es₁ ++ es₂ →
      (storeAfter X cfg es₁ id).objects.find? (.envelope, k) = some o₁ →
      ∃ o, (storeAfter X cfg es id).objects.find? (.envelope, k) = some o ∧
        o.objectHash = o₁.objectHash ∧ (o.body = o₁.body ∨ o.body = none)) ∧
    ∀ k o, (storeAfter X cfg es id).objects.find? (.envelope, k) = some o → o.body = none →
      ∃ es₁ es₂ b row comp, es = es₁ ++ es₂ ∧
        (storeAfter X cfg es₁ id).object .envelope k = some b ∧ X.objectHash b = o.objectHash ∧
        (storeAfter X cfg es id).handoffs.find? (n b "epoch") = some row ∧ row.expired = true ∧
        (storeAfter X cfg es id).object .compaction row.compactionId = some comp ∧
        n b "epoch" < n c.epoch "epoch" := by
  refine ⟨?_, fun k o ho hbody => envelope_spent X cfg es id k c o hdel hc ho hbody⟩
  rintro es₁ es₂ k o₁ rfl ho₁
  obtain ⟨o, ho, hlater⟩ := object_row_stays X cfg es₁ es₂ id hdel ho₁
  exact ⟨o, ho, hlater.objectHash, hlater.body.imp_right And.left⟩

namespace Sample

/-- The first epoch is handed off by a prune, and expires. -/
def expiredRun : List Event :=
  genesisRun ++ rotationRun ++ upload 2 2 1 (partsRequest 2 [part1]) ++
    perform 3 30 (snapshotRequest (compaction1 (logAfter genesisRun) 5)) ++
    perform 4 31 (pruneRequest 5) ++ [.retention (oracle 1600 70)]

theorem expiredRun_facts :
    ((storeAfter crypto cfg expiredRun chainId).deletion.isNone &&
      (storeAfter crypto cfg expiredRun chainId).chain.isSome &&
      ((storeAfter crypto cfg expiredRun chainId).objects.find? (.envelope, uid 51)).any
        fun o => o.body.isNone) = true := by
  decide +kernel

/-- After `genesisRun` the envelope of the first device is held. -/
theorem heldEnvelope_facts :
    (((storeAfter crypto cfg genesisRun chainId).objects.find? (.envelope, uid 51)).any
      fun o => o.body.isSome) = true := by
  decide +kernel

end Sample

/-- The envelope of the first device for the first epoch is gone by expiry; its
row is still there. -/
theorem removed_envelope_first : (∃ es₁ es₂ b row, Sample.expiredRun = es₁ ++ es₂ ∧
    (storeAfter Sample.crypto Sample.cfg es₁ Sample.chainId).object .envelope (Sample.uid 51) =
      some b ∧
    (storeAfter Sample.crypto Sample.cfg Sample.expiredRun Sample.chainId).handoffs.find?
      (n b "epoch") = some row ∧ row.expired = true) ∧
    ∃ o₁ o, (storeAfter Sample.crypto Sample.cfg Sample.genesisRun Sample.chainId).objects.find?
        (.envelope, Sample.uid 51) = some o₁ ∧ o₁.body.isSome ∧
      (storeAfter Sample.crypto Sample.cfg Sample.expiredRun Sample.chainId).objects.find?
        (.envelope, Sample.uid 51) = some o ∧ o.objectHash = o₁.objectHash := by
  have hfacts := Sample.expiredRun_facts
  simp only [Bool.and_eq_true, Option.isNone_iff_eq_none] at hfacts
  obtain ⟨⟨hdel, hc⟩, hgone⟩ := hfacts
  obtain ⟨c, hc⟩ := Option.isSome_iff_exists.mp hc
  obtain ⟨o, ho, hbody⟩ := (Option.any_eq_true _ _).mp hgone
  obtain ⟨o₁, ho₁, hbody₁⟩ := (Option.any_eq_true _ _).mp Sample.heldEnvelope_facts
  obtain ⟨hstays, hgone⟩ := removed_envelope Sample.crypto Sample.cfg Sample.expiredRun
    Sample.chainId c hdel hc
  constructor
  · obtain ⟨es₁, es₂, b, row, comp, hes, hheld, -, hrow, hexp, -⟩ :=
      hgone _ o ho (Option.isNone_iff_eq_none.mp hbody)
    exact ⟨es₁, es₂, b, row, hes, hheld, hrow, hexp⟩
  · have hfront : ∃ rest, Sample.expiredRun = Sample.genesisRun ++ rest := by
      simp only [Sample.expiredRun, List.append_assoc]
      exact ⟨_, rfl⟩
    obtain ⟨rest, hrest⟩ := hfront
    obtain ⟨o', ho', hhash, -⟩ := hstays _ _ _ o₁ hrest ho₁
    exact ⟨o₁, o', ho₁, hbody₁, ho', hhash⟩

/-! ## The members of a chain -/

/-- The object is stored under its digest; its body is there as it was sent,
unless another one of the same digest was once stored in its place. -/
def Held (X : Crypto) (cfg : RelayConfig) (es : List Event) (id : String) (kind : Kind)
    (v : Json) : Prop :=
  ∃ o, (storeAfter X cfg es id).objects.find? (kind, objectId v kind) = some o ∧
    o.objectHash = X.objectHash v ∧
    (o.body = some v ∨ ∃ es₁ es₂ b, es = es₁ ++ es₂ ∧
      (storeAfter X cfg es₁ id).object kind (objectId v kind) = some b ∧ b ≠ v ∧
      X.objectHash b = X.objectHash v)

/-- The envelope `e` of the current epoch is held, made out to the key in the
device record `d`, which is held as well. -/
structure Served (X : Crypto) (cfg : RelayConfig) (es : List Event) (id : String) (c : Chain)
    (member : String) (e d : Json) : Prop where
  device : Held X cfg es id .device d
  deviceId : s d "device_id" = member
  envelope : Held X cfg es id .envelope e
  kind : s e "recipient_kind" = "device"
  recipient : s e "recipient_device_id" = member
  epoch : n e "epoch" = n c.epoch "epoch"
  key : e.get "recipient_key_hash" = .str (kexHash X d)

/-- A device that is not revoked: of the current generation, a member of the
epoch or enrolled after its entry, and served. -/
structure Entitled (X : Crypto) (cfg : RelayConfig) (es : List Event) (id : String) (c : Chain)
    (row : RegistryRow) : Prop where
  generation : row.generation = c.generation
  joined : row.deviceId ∈ strings c.epoch "members" ∨
    ∃ rr, (storeAfter X cfg es id).receipts.find? (.epoch, objectId c.epoch .epoch) = some rr ∧
      (rr.logId = c.logId → ∃ i, rr.seq = some i ∧ i < row.enrolledSeq)
  served : ∃ e d, Served X cfg es id c row.deviceId e d

section Members

variable {X : Crypto} {cfg : RelayConfig} {es : List Event} {id : String} {c : Chain} {v : Json}
  {kind : Kind}

/-- What is on file with a body is held. -/
theorem Ledger.Filed.held (h : ((storeAfter X cfg es id).ledger c).Filed X kind v)
    (hs : Sound X ((storeAfter X cfg es id).ledger c))
    (hbody : ∀ o, (storeAfter X cfg es id).objects.find? (kind, objectId v kind) = some o →
      o.body = none → ∃ es₁ es₂ b, es = es₁ ++ es₂ ∧
        (storeAfter X cfg es₁ id).object kind (objectId v kind) = some b ∧ b ≠ v ∧
        X.objectHash b = o.objectHash) : Held X cfg es id kind v := by
  obtain ⟨o, ho, hhash⟩ := h
  refine ⟨o, ho, hhash, ?_⟩
  cases hb : o.body with
  | none =>
      obtain ⟨es₁, es₂, b, hes, hheld, hne, hdigest⟩ := hbody o ho hb
      exact .inr ⟨es₁, es₂, b, hes, hheld, hne, hdigest.trans hhash⟩
  | some b =>
      by_cases hbv : b = v
      · exact .inl (by rw [hbv])
      · refine .inr ⟨es, [], b, (List.append_nil es).symm, object_eq_some.mpr ⟨o, ho, hb⟩, hbv, ?_⟩
        exact ((hs.object_of_find? ho).body b hb).1.trans hhash

/-- A device record is held as soon as it is on file. -/
theorem Ledger.Filed.held_device (h : ((storeAfter X cfg es id).ledger c).Filed X .device v)
    (hs : Sound X ((storeAfter X cfg es id).ledger c)) : Held X cfg es id .device v :=
  h.held hs fun o ho hb => by
    obtain ⟨d, hd, -⟩ := hs.device_body (show _ = some o from ho)
    rw [hb] at hd
    cases hd

/-- An envelope of the current epoch cannot have expired. -/
theorem Ledger.Filed.held_envelope
    (h : ((storeAfter X cfg es id).ledger c).Filed X .envelope v)
    (hs : Sound X ((storeAfter X cfg es id).ledger c))
    (hdel : (storeAfter X cfg es id).deletion = none)
    (hc : (storeAfter X cfg es id).chain = some c) (hepoch : n v "epoch" = n c.epoch "epoch") :
    Held X cfg es id .envelope v :=
  h.held hs fun o ho hb => by
    obtain ⟨es₁, es₂, b, -, -, hes, hheld, hhash, -, -, -, holder⟩ :=
      envelope_spent X cfg es id _ c o hdel hc ho hb
    refine ⟨es₁, es₂, b, hes, hheld, ?_, hhash⟩
    rintro rfl
    omega

/-- Who is seated is served. -/
theorem Membership.held_served {max : Nat} {m : String} {row : RegistryRow}
    (hm : Membership X max ((storeAfter X cfg es id).ledger c))
    (hdel : (storeAfter X cfg es id).deletion = none)
    (hc : (storeAfter X cfg es id).chain = some c)
    (hseat : ((storeAfter X cfg es id).ledger c).Seat m row) :
    ∃ e d, Served X cfg es id c m e d := by
  have hs := ((store_settled X cfg es id).ledger hdel hc).sound
  obtain ⟨e, d, hd⟩ := hm.served m row hseat
  exact ⟨e, d, hd.device.held_device hs, hd.deviceId,
    hd.envelope.held_envelope hs hdel hc hd.epoch, hd.kind, hd.recipient, hd.epoch, hd.key⟩

/-- The recovery envelope of the epoch is held. -/
theorem Membership.held_recovery {max : Nat}
    (hm : Membership X max ((storeAfter X cfg es id).ledger c))
    (hdel : (storeAfter X cfg es id).deletion = none)
    (hc : (storeAfter X cfg es id).chain = some c) :
    ∃ e, Held X cfg es id .envelope e ∧ s e "recipient_kind" = "recovery" ∧
      n e "epoch" = n c.epoch "epoch" ∧ X.objectHash e = s c.epoch "recovery_envelope_hash" := by
  have hs := ((store_settled X cfg es id).ledger hdel hc).sound
  obtain ⟨e, he⟩ := hm.recovered
  exact ⟨e, he.envelope.held_envelope hs hdel hc he.epoch, he.kind, he.epoch, he.hash⟩

theorem Membership.seated {max : Nat} {L : Ledger} (hm : Membership X max L) {m : String}
    (hmem : m ∈ strings L.chain.epoch "members") :
    ∃ row ∈ L.registry, row.deviceId = m ∧ row.status ≠ .revoked := by
  obtain ⟨row, hrow, hlive⟩ := hm.members m hmem
  exact ⟨row, Table.mem_of_find? hrow, Table.key_of_find? hrow, hlive⟩

theorem Membership.count_le {max : Nat} {L : Ledger} (hm : Membership X max L) :
    L.registry.count (·.status != .revoked) ≤ max := by
  have hle := hm.limit ((L.registry.select (·.status != .revoked)).map (·.deviceId))
    (Table.select_nodup _ _) fun m hmem => by
      obtain ⟨row, hrow, rfl⟩ := List.mem_map.mp hmem
      obtain ⟨hin, hlive⟩ := Table.mem_select.mp hrow
      exact ⟨row, Table.find?_of_mem hin, by simpa using hlive⟩
  rw [List.length_map] at hle
  exact hle

end Members

/-- The devices of a writable chain that are not revoked are entitled and
served, the members of its epoch are among them, its recovery envelope is held,
and they are within the device limit of the one disclosure that the relay runs
under. -/
theorem membership_delivered (X : Crypto) (cfg : RelayConfig) (es : List Event) (id : String)
    (c : Chain) (hdel : (storeAfter X cfg es id).deletion = none)
    (hc : (storeAfter X cfg es id).chain = some c) (hw : c.writable = true) :
    (∀ row ∈ (storeAfter X cfg es id).registry, row.status ≠ .revoked →
      Entitled X cfg es id c row) ∧
    (∀ m ∈ strings c.epoch "members", ∃ row ∈ (storeAfter X cfg es id).registry,
      row.deviceId = m ∧ row.status ≠ .revoked) ∧
    (∃ e, Held X cfg es id .envelope e ∧ s e "recipient_kind" = "recovery" ∧
      n e "epoch" = n c.epoch "epoch" ∧ X.objectHash e = s c.epoch "recovery_envelope_hash") ∧
    (storeAfter X cfg es id).registry.count (·.status != .revoked) ≤ cfg.limits.maxDevices := by
  have hm : Membership X cfg.limits.maxDevices ((storeAfter X cfg es id).ledger c) :=
    store_manned X cfg es id hdel c hc hw
  refine ⟨fun row hrow hlive => ?_, fun m hmem => hm.seated hmem, hm.held_recovery hdel hc,
    hm.count_le⟩
  have hseat : ((storeAfter X cfg es id).ledger c).Seat row.deviceId row :=
    ⟨Table.find?_of_mem hrow, hlive⟩
  refine ⟨hm.current _ row hseat, ?_, hm.held_served hdel hc hseat⟩
  by_cases hmember : row.deviceId ∈ strings c.epoch "members"
  · exact .inl hmember
  · obtain ⟨rr, hrr, hlater⟩ := hm.placed
    exact .inr ⟨rr, hrr, fun hlog => hlater _ row hseat hmember hlog⟩

namespace Sample

theorem revocationRun_facts :
    ((storeAfter crypto cfg revocationRun chainId).deletion.isNone &&
      (storeAfter crypto cfg revocationRun chainId).chain.any (fun c =>
        c.writable && decide (c.epoch = epoch0)) &&
      ((storeAfter crypto cfg revocationRun chainId).registry.find? (uid 2)).any
        (fun row => decide (row.status ≠ .revoked)) &&
      decide (uid 2 ∉ strings epoch0 "members")) = true := by
  decide +kernel

end Sample

/-- The second device was enrolled after the epoch: it is entitled, and served. -/
theorem membership_delivered_second : ∃ c row, c.epoch = Sample.epoch0 ∧
    row.deviceId = Sample.uid 2 ∧ row.deviceId ∉ strings c.epoch "members" ∧
    Entitled Sample.crypto Sample.cfg Sample.revocationRun Sample.chainId c row := by
  have hfacts := Sample.revocationRun_facts
  simp only [Bool.and_eq_true, Option.isNone_iff_eq_none, decide_eq_true_eq] at hfacts
  obtain ⟨⟨⟨hdel, hchain⟩, hrow⟩, hnot⟩ := hfacts
  obtain ⟨c, hc, hchain⟩ := (Option.any_eq_true _ _).mp hchain
  simp only [Bool.and_eq_true, decide_eq_true_eq] at hchain
  obtain ⟨row, hrow, hlive⟩ := (Option.any_eq_true _ _).mp hrow
  have hid : row.deviceId = Sample.uid 2 := Table.key_of_find? hrow
  refine ⟨c, row, hchain.2, hid, by rw [hid, hchain.2]; exact hnot, ?_⟩
  exact (membership_delivered Sample.crypto Sample.cfg Sample.revocationRun Sample.chainId c hdel
    hc hchain.1).1 row (Table.mem_of_find? hrow) (of_decide_eq_true hlive)

end PallaSync
