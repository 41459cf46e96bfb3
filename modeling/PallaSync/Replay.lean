import PallaSync.Sample

/-!
# Replay of capability tokens

An event presents a token when the request it carries passes every check of
`authenticate` before the reservation (`World.admission`), and consumes it
when the nonce is free (`World.consumes`). Of the shared tables a step changes
the nonces only by such a presentation (`step_nonces`): it drops what has
expired at its own clock reading and reserves its own nonce. From this one
fact follows what the durable cache guarantees; the restart barrier is the
second mechanism, and needs no cache.
-/

namespace PallaSync

open Machine

/-! ## Presented tokens -/

/-- A token presented to a chain, with the clock reading it is judged by. -/
structure Admission where
  chainId : String
  token : Json
  reading : Nat
deriving DecidableEq

namespace Admission

/-- The tuple the relay remembers. -/
def tuple (a : Admission) : String × String × String × String :=
  (a.chainId, s a.token "signer_kind", (tokenDevice a.token).getD "", s a.token "nonce")

/-- The last clock reading of the token's acceptance window. -/
def lastMs (a : Admission) : Nat := n a.token "expires_at_ms" + 60000

/-- The row that reserves the nonce. -/
def row (a : Admission) : NonceRow where
  chainId := a.chainId
  signerKind := s a.token "signer_kind"
  deviceId := (tokenDevice a.token).getD ""
  nonce := s a.token "nonce"
  expiresAtMs := n a.token "expires_at_ms" + 60000

@[simp] theorem row_key (a : Admission) : a.row.key = a.tuple := rfl

/-- Some clock reading lies in the acceptance windows of both tokens. -/
def Overlap (a b : Admission) : Prop :=
  n a.token "issued_at_ms" ≤ b.lastMs + 60000 ∧ n b.token "issued_at_ms" ≤ a.lastMs + 60000

instance (a b : Admission) : Decidable (a.Overlap b) := by
  unfold Overlap
  infer_instance

end Admission

/-- What is checked of a token before the clock is read. -/
def tokenRead (R : Relay) (q : Request) (chainId : String) : Except ApiError Json := do
  let token ← q.token
  tokenShape R.crypto token
  tokenBinding R q chainId token
  pure token

/-- The nonces left when the expired ones are dropped at reading `t`. -/
def Desk.unexpired (desk : Desk) (t : Nat) : Table NonceRow NonceRow.key :=
  desk.nonces.delete fun r => decide (r.expiresAtMs < t)

namespace World

/-- The clock reading `authenticate` takes. -/
def reading (X : Crypto) (w : World) : Event → Option Nat
  | .request q o =>
      if q.route = .request then none
      else match requestChain X q with
        | .error _ => none
        | .ok (id, _) => match tokenRead (w.relay X) q id with
          | .error _ => none
          | .ok _ => some (o.now 0)
  | _ => none

/-- The token that reaches the reservation. -/
def admission (X : Crypto) (w : World) : Event → Option Admission
  | .request q o =>
      if q.route = .request then none
      else match requestChain X q with
        | .error _ => none
        | .ok (id, proposed) =>
            match tokenCheck (w.relay X) (w.store id) w.barrier q id proposed (o.now 0) with
            | .error _ => none
            | .ok token => some ⟨id, token, o.now 0⟩
  | _ => none

/-- The token whose nonce is reserved: it was free. -/
def consumes (X : Crypto) (w : World) (ev : Event) : Option Admission :=
  (w.admission X ev).filter fun a => ((w.desk.unexpired a.reading).insert? a.row).isSome

end World

/-! ## What authentication does to the nonces -/

section Authentication

variable {R : Relay} {st : Store} {barrier : Option Nat} {desk desk' : Desk} {q : Request}
  {id : String} {proposed : Option String} {t t' : Nat} {auth : Auth} {token : Json}

theorem authenticate_error {e : ApiError}
    (h : tokenCheck R st barrier q id proposed t = .error e) :
    authenticate R st barrier desk q id proposed t t' = (.error e, desk) := by
  unfold authenticate
  rw [h]

theorem authenticate_nonces (h : tokenCheck R st barrier q id proposed t = .ok token)
    (t' : Nat) :
    (authenticate R st barrier desk q id proposed t t').2.nonces =
      (desk.unexpired t).insertIgnore (Admission.row ⟨id, token, t⟩) := by
  unfold authenticate Table.insertIgnore
  rw [h]
  dsimp only
  show _ = Option.getD ((desk.unexpired t).insert? _) _
  split
  · rename_i hi
    exact (congrArg (Option.getD · _) hi).symm
  · rename_i nonces hi
    refine Eq.trans ?_ (congrArg (Option.getD · (desk.unexpired t)) hi).symm
    split
    · rfl
    · split <;> rfl

/-- Who authenticates has consumed the token. -/
theorem authenticate_ok (h : (authenticate R st barrier desk q id proposed t t').1 = .ok auth) :
    tokenCheck R st barrier q id proposed t = .ok auth.token ∧
      ((desk.unexpired t).insert? (Admission.row ⟨id, auth.token, t⟩)).isSome := by
  unfold authenticate at h
  split at h
  · cases h
  · rename_i token htoken
    dsimp only at h
    split at h
    · cases h
    · rename_i nonces hi
      split at h
      · cases h
      · split at h
        · cases h
        · cases h
          exact ⟨htoken, Option.isSome_iff_exists.mpr ⟨nonces, hi⟩⟩

/-- The checks before the reservation, one by one. -/
theorem tokenCheck_ok (h : tokenCheck R st barrier q id proposed t = .ok token) :
    tokenRead R q id = .ok token ∧ tokenFresh token t = .ok () ∧
      (R.cfg.restartBarrier = true → ∃ b, barrier = some b ∧ b ≤ n token "issued_at_ms") := by
  unfold tokenCheck at h
  dsimp only at h
  obtain ⟨token', htoken, h⟩ := Check.bind_ok.mp h
  obtain ⟨_, hshape, h⟩ := Check.bind_ok.mp h
  obtain ⟨_, hbinding, h⟩ := Check.bind_ok.mp h
  obtain ⟨_, hfresh, h⟩ := Check.bind_ok.mp h
  obtain ⟨_, -, h⟩ := Check.bind_ok.mp h
  obtain ⟨_, -, h⟩ := Check.bind_ok.mp h
  obtain ⟨_, -, h⟩ := Check.bind_ok.mp h
  have hread : tokenRead R q id = .ok token' :=
    Check.bind_ok.mpr ⟨token', htoken, Check.bind_ok.mpr ⟨(), hshape,
      Check.bind_ok.mpr ⟨(), hbinding, rfl⟩⟩⟩
  split at h
  · obtain ⟨b, hb, h⟩ := Check.bind_ok.mp h
    obtain ⟨_, hle, h⟩ := Check.bind_ok.mp h
    cases h
    refine ⟨hread, hfresh, fun _ => ⟨b, ?_, ?_⟩⟩
    · simpa using hb
    · simpa using hle
  · rename_i hmode
    cases h
    exact ⟨hread, hfresh, fun hm => absurd hm hmode⟩

/-- A token of a request names the chain it is presented to. -/
theorem tokenRead_chain (h : tokenRead R q id = .ok token) : s token "chain_id" = id := by
  unfold tokenRead at h
  obtain ⟨_, -, h⟩ := Check.bind_ok.mp h
  obtain ⟨_, -, h⟩ := Check.bind_ok.mp h
  obtain ⟨_, hbinding, h⟩ := Check.bind_ok.mp h
  cases h
  simp only [tokenBinding, Check.failIf_ok, Bool.or_eq_false_iff, bne_eq_false_iff_eq] at hbinding
  exact hbinding.1.1.1.1.2

/-- A fresh token is judged within its window. -/
theorem tokenFresh_ok (h : tokenFresh token t = .ok ()) :
    n token "issued_at_ms" ≤ t + 60000 ∧ t ≤ n token "expires_at_ms" + 60000 := by
  unfold tokenFresh at h
  obtain ⟨_, -, h⟩ := Check.bind_ok.mp h
  obtain ⟨_, -, h⟩ := Check.bind_ok.mp h
  obtain ⟨_, hissued, h⟩ := Check.bind_ok.mp h
  simp only [Check.failIf_ok, decide_eq_false_iff_not, not_lt] at hissued h
  exact ⟨hissued, h⟩

end Authentication

/-! ## What a step does to the nonces -/

namespace World

variable {X : Crypto} {w : World}

/-- The nonces, the barrier and the configuration are left as they are. -/
structure Shares (w w' : World) : Prop where
  nonces : w'.desk.nonces = w.desk.nonces
  barrier : w'.barrier = w.barrier
  cfg : w'.cfg = w.cfg

theorem mapStores_shares {w' : World} {f : Nat → Store → Except ApiError Store}
    (h : w.mapStores f = .ok w') : w.Shares w' := by
  unfold mapStores at h
  split at h
  · cases h
  · cases h
    exact ⟨rfl, rfl, rfl⟩

theorem Shares.setTask {w' : World} (h : w.Shares w') (i : Nat) (task : Task) :
    w.Shares (w'.setTask i task) :=
  ⟨h.nonces, h.barrier, h.cfg⟩

theorem stepStart_shares (i : Nat) (call : Call) (value : Except ApiError Json) (o : Oracle)
    (faults : Faults) : w.Shares (w.stepStart X i call value o faults) := by
  unfold stepStart
  dsimp only
  split
  · exact ⟨rfl, rfl, rfl⟩
  · split
    · split <;> exact ⟨rfl, rfl, rfl⟩
    · split <;> exact ⟨rfl, rfl, rfl⟩

theorem stepFinish_shares (i : Nat) (after : After) (o : Oracle) :
    w.Shares (w.stepFinish X i after o) := by
  unfold stepFinish
  dsimp only
  split
  · rename_i w' hw'
    exact (mapStores_shares hw').setTask i _
  · exact ⟨rfl, rfl, rfl⟩

theorem stepNotices_shares (i : Nat) (o : Oracle) : w.Shares (w.stepNotices X i o) := by
  unfold stepNotices
  split
  · rename_i w' hw'
    exact (mapStores_shares hw').setTask i _
  · exact ⟨rfl, rfl, rfl⟩

theorem stepErase_shares (i : Nat) (after : After) (faults : Faults) :
    w.Shares (w.stepErase i after faults) := by
  unfold stepErase
  dsimp only
  split <;> exact ⟨rfl, rfl, rfl⟩

theorem stepTask_shares (i : Nat) (o : Oracle) (faults : Faults) :
    w.Shares (w.stepTask X i o faults) := by
  unfold stepTask
  dsimp only
  split
  · exact stepStart_shares _ _ _ _ _
  · exact ⟨rfl, rfl, rfl⟩
  · split <;> exact ⟨rfl, rfl, rfl⟩
  · exact ⟨rfl, rfl, rfl⟩
  · exact ⟨rfl, rfl, rfl⟩
  · exact stepErase_shares _ _ _
  · exact stepFinish_shares _ _ _
  · exact stepNotices_shares _ _
  · exact ⟨rfl, rfl, rfl⟩
  · exact ⟨rfl, rfl, rfl⟩

theorem stepRetention_shares (o : Oracle) : w.Shares (w.stepRetention X o) := by
  unfold stepRetention
  split
  · rename_i w' hw'
    exact mapStores_shares hw'
  · exact ⟨rfl, rfl, rfl⟩

theorem stepEnrollment_shares (q : Request) (v : Json) (o : Oracle) :
    w.Shares (w.stepEnrollment X q v o) := by
  unfold stepEnrollment
  dsimp only
  split
  · exact ⟨rfl, rfl, rfl⟩
  · split <;> exact ⟨rfl, rfl, rfl⟩

/-- Only a restart moves the barrier. -/
theorem stepRequest_settled (q : Request) (o : Oracle) :
    (w.stepRequest X q o).barrier = w.barrier ∧ (w.stepRequest X q o).cfg = w.cfg := by
  unfold stepRequest
  dsimp only
  split
  · split
    · exact ⟨rfl, rfl⟩
    · split
      · exact ⟨rfl, rfl⟩
      · exact ⟨(stepEnrollment_shares q _ o).barrier, (stepEnrollment_shares q _ o).cfg⟩
  · split
    · exact ⟨rfl, rfl⟩
    · split <;> exact ⟨rfl, rfl⟩

theorem stepRequest_nonces (q : Request) (o : Oracle) :
    (w.stepRequest X q o).desk.nonces = match w.admission X (.request q o) with
      | none => w.desk.nonces
      | some a => (w.desk.unexpired a.reading).insertIgnore a.row := by
  unfold stepRequest admission
  dsimp only
  split
  · split
    · rfl
    · split
      · rfl
      · exact (stepEnrollment_shares q _ o).nonces
  · cases hid : requestChain X q with
    | error e => rfl
    | ok p =>
        obtain ⟨id, proposed⟩ := p
        dsimp only
        cases htoken : tokenCheck (w.relay X) (w.store id) w.barrier q id proposed (o.now 0) with
        | error e =>
            rw [authenticate_error htoken]
            rfl
        | ok token =>
            refine Eq.trans ?_ (authenticate_nonces htoken (o.now 1))
            generalize authenticate (w.relay X) (w.store id) w.barrier w.desk q id proposed
              (o.now 0) (o.now 1) = r
            obtain ⟨verdict, desk⟩ := r
            cases verdict <;> rfl

/-- A step changes the nonces by the token it presents, and not otherwise. -/
theorem step_nonces (ev : Event) :
    (w.step X ev).desk.nonces = match w.admission X ev with
      | none => w.desk.nonces
      | some a => (w.desk.unexpired a.reading).insertIgnore a.row := by
  cases ev with
  | request q o => exact stepRequest_nonces q o
  | resume i o faults => exact (stepTask_shares i o faults).nonces
  | complete => rfl
  | retention o => exact (stepRetention_shares o).nonces
  | restart settings t => rfl

/-- What an admission has passed. -/
theorem admission_ok {ev : Event} {a : Admission} (h : w.admission X ev = some a) :
    w.reading X ev = some a.reading ∧ s a.token "chain_id" = a.chainId ∧
      n a.token "issued_at_ms" ≤ a.reading + 60000 ∧ a.reading ≤ a.lastMs ∧
      (w.cfg.restartBarrier = true →
        ∃ b, w.barrier = some b ∧ b ≤ n a.token "issued_at_ms") := by
  cases ev with
  | request q o =>
      unfold admission at h
      unfold reading
      dsimp only at h ⊢
      split at h
      · cases h
      · rename_i hroute
        rw [if_neg hroute]
        split at h
        · cases h
        · rename_i id proposed hid
          split at h
          · cases h
          · rename_i token htoken
            obtain rfl := Option.some.inj h
            obtain ⟨hread, hfresh, hbarrier⟩ := tokenCheck_ok htoken
            rw [hread]
            exact ⟨rfl, tokenRead_chain hread, (tokenFresh_ok hfresh).1, (tokenFresh_ok hfresh).2,
              hbarrier⟩
  | resume | complete | retention | restart => cases h

theorem consumes_ok {ev : Event} {a : Admission} (h : w.consumes X ev = some a) :
    w.admission X ev = some a ∧ ((w.desk.unexpired a.reading).insert? a.row).isSome := by
  exact Option.filter_eq_some_iff.mp h

end World

/-! ## The durable cache -/

/-- The clock readings of authentication along a run. -/
def readings (X : Crypto) (w : World) (es : List Event) : List Nat :=
  observe (World.step X) (World.reading X) w es

section Cache

variable {X : Crypto} {w : World} {a : Admission}

theorem World.nonces_kept {ev : Event} {r : NonceRow} (hr : r ∈ w.desk.nonces)
    (hreading : ∀ t, w.reading X ev = some t → t ≤ r.expiresAtMs) :
    r ∈ (w.step X ev).desk.nonces := by
  rw [World.step_nonces]
  split
  · exact hr
  · rename_i b hb
    refine Table.mem_insertIgnore_of_mem (Table.mem_delete.mpr ⟨hr, ?_⟩)
    have hle := hreading _ (World.admission_ok hb).1
    simpa using hle

/-- A reservation outlives every step whose reading is in its window. -/
theorem run_nonces_kept {r : NonceRow} (es : List Event) (hr : r ∈ w.desk.nonces)
    (hreadings : ∀ t ∈ readings X w es, t ≤ r.expiresAtMs) :
    r ∈ (run (World.step X) w es).desk.nonces := by
  induction es generalizing w with
  | nil => exact hr
  | cons ev es ih =>
      have hmem : ∀ t ∈ (w.reading X ev).toList ++ readings X (w.step X ev) es,
          t ≤ r.expiresAtMs := hreadings
      refine ih (World.nonces_kept hr fun t ht => hmem t ?_) fun t ht => hmem t ?_
      · exact List.mem_append_left _ (by simp [ht])
      · exact List.mem_append_right _ ht

theorem World.consumes_row {ev : Event} (h : w.consumes X ev = some a) :
    a.row ∈ (w.step X ev).desk.nonces := by
  obtain ⟨hadm, hfree⟩ := World.consumes_ok h
  obtain ⟨t, ht⟩ := Option.isSome_iff_exists.mp hfree
  rw [World.step_nonces, hadm]
  unfold Table.insertIgnore
  dsimp only
  rw [ht]
  exact ((Table.insert?_eq_some ht).2 _).mpr (.inr rfl)

/-- A consumed token with the same tuple is past its window. -/
theorem World.consumes_stale {ev : Event} {b : Admission} (h : w.consumes X ev = some b)
    (hr : a.row ∈ w.desk.nonces) (htuple : b.tuple = a.tuple) : a.lastMs < b.reading := by
  obtain ⟨hadm, hfree⟩ := World.consumes_ok h
  obtain ⟨t, ht⟩ := Option.isSome_iff_exists.mp hfree
  by_contra hle
  have hkept : a.row ∈ w.desk.unexpired b.reading := by
    refine Table.mem_delete.mpr ⟨hr, decide_eq_false ?_⟩
    exact hle
  exact (Table.insert?_eq_some ht).1 _ hkept htuple.symm

theorem readings_append (w : World) (es es' : List Event) :
    readings X w (es ++ es') = readings X w es ++ readings X (run (World.step X) w es) es' :=
  observe_append w es es'

end Cache

/-- In a run whose clock does not go back, a consumed tuple is not consumed
again within the window of the token that consumed it; so no token is consumed
twice, whatever is presented in between and whatever became of the operation. -/
theorem nonce_cache (X : Crypto) (cfg : RelayConfig) (es es' : List Event) (ev ev' : Event)
    (a b : Admission)
    (hclock : (readings X (World.initial cfg) (es ++ ev :: es' ++ [ev'])).Pairwise (· ≤ ·))
    (ha : (World.after X cfg es).consumes X ev = some a)
    (hb : (World.after X cfg (es ++ ev :: es')).consumes X ev' = some b) :
    (b.tuple = a.tuple → a.lastMs < b.reading) ∧ b.token ≠ a.token := by
  have hbound : ∀ t ∈ readings X ((World.after X cfg es).step X ev) es', t ≤ b.reading := by
    intro t ht
    rw [readings_append] at hclock
    refine (List.pairwise_append.mp hclock).2.2 t ?_ _ ?_
    · rw [readings_append]
      exact List.mem_append_right _ (List.mem_append_right _ ht)
    · have hread := (World.admission_ok (World.consumes_ok hb).1).1
      exact List.mem_append_left _ (Option.mem_toList.mpr hread)
  have hstale : b.tuple = a.tuple → a.lastMs < b.reading := by
    intro htuple
    by_contra hle
    refine hle (World.consumes_stale hb ?_ htuple)
    have hrun : World.after X cfg (es ++ ev :: es') =
        run (World.step X) ((World.after X cfg es).step X ev) es' := run_append _ _ _
    rw [hrun]
    exact run_nonces_kept es' (World.consumes_row ha) fun t ht =>
      (hbound t ht).trans (not_lt.mp hle)
  refine ⟨hstale, fun htoken => ?_⟩
  obtain ⟨-, hchain, -⟩ := World.admission_ok (World.consumes_ok ha).1
  obtain ⟨-, hchain', -, hlast, -⟩ := World.admission_ok (World.consumes_ok hb).1
  have htuple : b.tuple = a.tuple := by
    rw [Admission.tuple, Admission.tuple, ← hchain, ← hchain', htoken]
  have hlt := hstale htuple
  rw [Admission.lastMs, htoken] at hlast
  rw [Admission.lastMs] at hlt
  omega

section Samples

open Sample

/-- A token with the nonce of `genesisToken`, issued within its window. -/
def twinToken : Json := tokenAt 61000 70000 0 none "POST" chainPath

def firstArrival : Event := .request (genesisWith genesisToken) (oracle 1500 0)

def twinArrival : Event := .request (genesisWith twinToken) (oracle 62001 1)

/-- The relay forgets a tuple once its token is past its window, so the twin is
accepted although the two windows overlap. -/
theorem overlapping_windows_reuse :
    (readings crypto (World.initial cfg) [firstArrival, twinArrival]).Pairwise (· ≤ ·) ∧
      ∃ a b, (World.after crypto cfg []).consumes crypto firstArrival = some a ∧
        (World.after crypto cfg [firstArrival]).consumes crypto twinArrival = some b ∧
        b.tuple = a.tuple ∧ a.Overlap b ∧ a.token ≠ b.token := by
  refine ⟨by decide +kernel, ⟨chainId, genesisToken, 1500⟩, ⟨chainId, twinToken, 62001⟩, ?_⟩
  decide +kernel

theorem nonce_cache_twin :
    (Admission.mk chainId genesisToken 1500).lastMs < 62001 ∧ twinToken ≠ genesisToken := by
  obtain ⟨hlast, htoken⟩ := nonce_cache crypto cfg [] [] firstArrival twinArrival
    ⟨chainId, genesisToken, 1500⟩ ⟨chainId, twinToken, 62001⟩ (by decide +kernel)
    (by decide +kernel) (by decide +kernel)
  exact ⟨hlast (by decide +kernel), htoken⟩

end Samples

/-! ## The restart barrier -/

/-- A step of the relay, or a restart that lost some of the nonces. -/
inductive Upset where
  | event (ev : Event)
  | lossyRestart (settings : Settings) (t : Nat) (lost : NonceRow → Bool)

namespace Upset

/-- The clock reading of a restart. -/
def restartedAt : Upset → Option Nat
  | .event (.restart _ t) => some t
  | .lossyRestart _ t _ => some t
  | _ => none

end Upset

namespace World

/-- Lose the nonces that satisfy `lost`. -/
def lose (w : World) (lost : NonceRow → Bool) : World :=
  { w with desk := { w.desk with nonces := w.desk.nonces.delete lost } }

def upset (X : Crypto) (w : World) : Upset → World
  | .event ev => w.step X ev
  | .lossyRestart settings t lost => (w.lose lost).stepRestart settings t

/-- The token an upset run presents next. -/
def presents (X : Crypto) (w : World) : Upset → Option Admission
  | .event ev => w.admission X ev
  | .lossyRestart .. => none

/-- The relay after the upsets `us`, from its installation. -/
def afterUpsets (X : Crypto) (cfg : RelayConfig) (us : List Upset) : World :=
  run (upset X) (initial cfg) us

variable {X : Crypto} {w : World}

theorem stepRestart_barrier (settings : Settings) (t : Nat) (h : w.cfg.restartBarrier = true) :
    (w.stepRestart settings t).barrier = some (max (w.barrier.getD 0) (t + 60000)) :=
  if_pos h

/-- In barrier mode, the barrier after a step: a restart moves it. -/
theorem upset_barrier (u : Upset) (h : w.cfg.restartBarrier = true) :
    (w.upset X u).cfg.restartBarrier = true ∧
      (w.upset X u).barrier = match u.restartedAt with
        | none => w.barrier
        | some t => some (max (w.barrier.getD 0) (t + 60000)) := by
  cases u with
  | lossyRestart settings t lost => exact ⟨h, stepRestart_barrier settings t h⟩
  | event ev =>
      cases ev with
      | request q o =>
          obtain ⟨hbarrier, hcfg⟩ := stepRequest_settled (X := X) (w := w) q o
          exact ⟨(congrArg _ hcfg).trans h, hbarrier⟩
      | resume i o faults =>
          have hs := stepTask_shares (X := X) (w := w) i o faults
          exact ⟨(congrArg _ hs.cfg).trans h, hs.barrier⟩
      | complete => exact ⟨h, rfl⟩
      | retention o =>
          have hs := stepRetention_shares (X := X) (w := w) o
          exact ⟨(congrArg _ hs.cfg).trans h, hs.barrier⟩
      | restart settings t => exact ⟨h, stepRestart_barrier settings t h⟩

/-- In barrier mode a run keeps the barrier or raises it. -/
theorem upsets_barrier (us : List Upset) (h : w.cfg.restartBarrier = true) :
    (run (upset X) w us).cfg.restartBarrier = true ∧
      ∀ b, w.barrier = some b → ∃ b', (run (upset X) w us).barrier = some b' ∧ b ≤ b' := by
  induction us generalizing w with
  | nil => exact ⟨h, fun b hb => ⟨b, hb, le_rfl⟩⟩
  | cons u us ih =>
      obtain ⟨hmode, hbarrier⟩ := upset_barrier (X := X) u h
      obtain ⟨hend, hkeep⟩ := ih hmode
      refine ⟨hend, fun b hb => ?_⟩
      have hnext : ∃ b₁, (w.upset X u).barrier = some b₁ ∧ b ≤ b₁ := by
        rw [hbarrier]
        split
        · exact ⟨b, hb, le_rfl⟩
        · exact ⟨_, rfl, by simp [hb]⟩
      obtain ⟨b₁, hb₁, hle₁⟩ := hnext
      obtain ⟨b₂, hb₂, hle₂⟩ := hkeep b₁ hb₁
      exact ⟨b₂, hb₂, hle₁.trans hle₂⟩

/-- What a presented token has passed. -/
theorem presents_ok {u : Upset} {a : Admission} (h : w.presents X u = some a) :
    n a.token "issued_at_ms" ≤ a.reading + 60000 ∧
      (w.cfg.restartBarrier = true →
        ∃ b, w.barrier = some b ∧ b ≤ n a.token "issued_at_ms") := by
  cases u with
  | lossyRestart => cases h
  | event ev =>
      obtain ⟨-, -, hissued, -, hbarrier⟩ := admission_ok h
      exact ⟨hissued, hbarrier⟩

end World

/-- In barrier mode, whatever nonces are lost at restarts, a token presented
before a restart is not accepted after it, and the barrier never goes back. -/
theorem restart_barrier (X : Crypto) (cfg : RelayConfig) (hmode : cfg.restartBarrier = true) :
    (∀ us u us' r us'' u' a b t,
      (World.afterUpsets X cfg us).presents X u = some a →
      r.restartedAt = some t → a.reading < t →
      (World.afterUpsets X cfg (us ++ u :: us' ++ r :: us'')).presents X u' = some b →
      b.token ≠ a.token) ∧
    ∀ us us' b, (World.afterUpsets X cfg us).barrier = some b →
      ∃ b', (World.afterUpsets X cfg (us ++ us')).barrier = some b' ∧ b ≤ b' := by
  have hmodes : ∀ us, (World.afterUpsets X cfg us).cfg.restartBarrier = true :=
    fun us => (World.upsets_barrier us hmode).1
  refine ⟨fun us u us' r us'' u' a b t ha hr hlt hb htoken => ?_, fun us us' b hb => ?_⟩
  · obtain ⟨hissued, -⟩ := World.presents_ok ha
    obtain ⟨-, hbarrier⟩ := World.presents_ok hb
    obtain ⟨c, hc, hle⟩ := hbarrier (hmodes _)
    -- the restart puts the barrier past the issue time of `a`
    have hrestart := (World.upset_barrier (X := X) r (hmodes (us ++ u :: us'))).2
    rw [hr] at hrestart
    obtain ⟨-, hkeep⟩ := World.upsets_barrier (X := X) us''
      (World.upset_barrier (X := X) r (hmodes (us ++ u :: us'))).1
    obtain ⟨c', hc', hle'⟩ := hkeep _ hrestart
    have hrun : World.afterUpsets X cfg (us ++ u :: us' ++ r :: us'') =
        run (World.upset X) ((World.afterUpsets X cfg (us ++ u :: us')).upset X r) us'' :=
      run_append _ _ _
    rw [hrun, hc'] at hc
    obtain rfl := Option.some.inj hc
    rw [htoken] at hle
    have hmax : t + 60000 ≤ c' := (le_max_right _ _).trans hle'
    omega
  · have hrun : World.afterUpsets X cfg (us ++ us') =
        run (World.upset X) (World.afterUpsets X cfg us) us' := run_append _ _ _
    rw [hrun]
    exact (World.upsets_barrier us' (hmodes us)).2 b hb

section Samples

open Sample

def barrierCfg : RelayConfig := { cfg with restartBarrier := true }

def startAt (t : Nat) : Upset := .lossyRestart ⟨none, none, none, false⟩ t fun _ => true

/-- The arrival of `twinToken` at clock reading `t`. -/
def arrivalAt (t : Nat) : Upset := .event (.request (genesisWith twinToken) (oracle t 0))

theorem restart_barrier_lossy :
    (World.afterUpsets crypto barrierCfg [startAt 1000]).presents crypto (arrivalAt 61500) =
        some ⟨chainId, twinToken, 61500⟩ ∧
      ∀ b, (World.afterUpsets crypto barrierCfg
          ([startAt 1000] ++ arrivalAt 61500 :: [] ++ startAt 61600 :: [])).presents crypto
            (arrivalAt 61700) = some b → b.token ≠ twinToken := by
  have hfirst : (World.afterUpsets crypto barrierCfg [startAt 1000]).presents crypto
      (arrivalAt 61500) = some ⟨chainId, twinToken, 61500⟩ := by decide +kernel
  refine ⟨hfirst, fun b hb => ?_⟩
  exact (restart_barrier crypto barrierCfg rfl).1 [startAt 1000] (arrivalAt 61500) []
    (startAt 61600) [] (arrivalAt 61700) _ b 61600 hfirst rfl (by decide) hb

end Samples

end PallaSync
