import PallaSync.Erasure
import PallaSync.Replay

/-!
# Outsiders

What the relay tells those who hold no key of a chain. Two requests come
from them: the enrollment endpoint is open to anybody, and a protected route
may be asked with a token nobody of the chain signed. In both cases the
relay answers as it does about a chain it has never seen, so the answers of
two relays that differ in their chains alone are the same; the checks that
run before the chain is looked at do not depend on it.

What counts as a key of the chain is every certificate the relay stores. A
device that an import has staged is not registered, and still the relay
tells its bearer what it lacks.
-/

namespace PallaSync

open Atomic Machine

variable {X : Crypto}

/-! ## Keys and live offers -/

/-- The keys a token of the chain may verify under: the admin's, those of the
devices that count, and those of a recorded deletion. -/
def Store.HasKey (st : Store) (counts : String → Prop) (key : String) : Prop :=
  (∃ c, st.chain = some c ∧ key = c.adminPublicKey) ∨
  (∃ id d, counts id ∧ st.object .device id = some d ∧ key = s d "device_public_key") ∨
  ∃ d, st.deletion = some d ∧ (key = d.adminPublicKey ∨ d.devicePublicKey = some key)

/-- A key of the chain, of any device the relay stores a certificate of. -/
def Store.Knows (st : Store) (key : String) : Prop := st.HasKey (fun _ => True) key

/-- As `Knows`, of registered devices only. -/
def Store.Registers (st : Store) (key : String) : Prop :=
  st.HasKey (fun id => (st.status id).isSome) key

/-- An offer one may answer with `v` at clock reading `t`: of a chain that
serves, by an active device of its generation, waiting, and not expired. -/
def Store.LiveOffer (st : Store) (v : Json) (t : Nat) : Prop :=
  ∃ c row key, st.deletion = none ∧ st.chain = some c ∧ c.writable = true ∧
    st.offers.find? (s v "request_id") = some row ∧
    v.get "offer_nonce" = row.offer.get "offer_nonce" ∧ row.status = .awaitingApproval ∧
    c.generation = n row.offer "generation" ∧ t ≤ n row.offer "expires_at_ms" + 60000 ∧
    activeDevice st c (s row.offer "offering_device_id") = .ok key

/-! ## The enrollment endpoint -/

theorem check_error {α : Type} {f : Store → Chain → Except ApiError α} {w : Work} {e : ApiError}
    (h : f w.cell.store w.cell.chain = .error e) : check f w = .error e := by
  unfold check
  rw [h]

theorem enrollmentRequest_absent (R : Relay) (v : Json) {w : Work} {c : Chain}
    (hdel : w.cell.store.deletion = none) (hc : w.cell.store.chain = some c)
    (hchain : w.cell.chain = c) (hw : c.writable = true) :
    FailsUnless (err .offerNotFound)
      (w.cell.store.LiveOffer v (w.oracle.now w.tick)) (enrollmentRequest R v) w := by
  unfold enrollmentRequest
  refine .lift (fun _ => Check.orElse_error) fun _ _ => ?_
  refine .step (chain_ok.mpr ⟨rfl, rfl⟩)
    (.step (look_ok.mpr ⟨rfl, rfl⟩) (.require fun row hrow => ?_))
  refine .failIf fun hstatus => .step (now_ok.mpr ⟨rfl, rfl⟩) (.failIf fun hexp => ?_)
  refine .step (now_ok.mpr ⟨rfl, rfl⟩) (.failIf fun _ => .step (now_ok.mpr ⟨rfl, rfl⟩) ?_)
  refine .failIf fun _ => .failIf fun hkeys => ?_
  simp only [Bool.or_eq_false_iff, bne_eq_false_iff_eq, decide_eq_false_iff_not,
    Nat.not_lt] at hstatus hexp
  have hnonce : v.get "offer_nonce" = row.offer.get "offer_nonce" := by
    have hall : offeredKeys.all (fun k => v.get k == row.offer.get k) = true := by simpa using hkeys
    exact eq_of_beq (List.all_eq_true.mp hall "offer_nonce" (by decide))
  cases hact : activeDevice w.cell.store c (s row.offer "offering_device_id") with
  | error e =>
      refine .stop (check_error ?_)
      rw [hchain, hact]
      rfl
  | ok key =>
      exact .inr ⟨c, row, key, hdel, hc, hw, hrow, hnonce, hstatus.1, hchain ▸ hstatus.2, hexp.1,
        hact⟩

/-- Without a live offer the endpoint answers as it does about no chain. -/
theorem enrollmentCandidate_absent (R : Relay) (q : Query) (v : Json) (o : Oracle) {st : Store}
    (h : ¬st.LiveOffer v (o.now 0)) :
    (enrollmentCandidate R q v).run o st = .error (match allowed q [] with
      | .error e => e
      | .ok _ => err .offerNotFound) := by
  have hrun : enrollmentCandidate R q v ⟨st.cell, o, 0⟩ = .error (match allowed q [] with
      | .error e => e
      | .ok _ => err .offerNotFound) := by
    unfold enrollmentCandidate
    cases hq : allowed q [] with
    | error e => rfl
    | ok u =>
        refine ((?_ : FailsUnless (err .offerNotFound) _ _ _)).resolve_right h
        refine .step (a := u) rfl (.step (look_ok.mpr ⟨rfl, rfl⟩) (.failIf fun hdel => ?_))
        refine .require fun c hc => .failIf fun hw => ?_
        have hnone : st.deletion = none := by simpa using hdel
        have hcell : st.cell.chain = c := by
          show st.chain.getD .unset = c
          rw [show st.chain = some c from hc]
          rfl
        exact .bind (enrollmentRequest_absent R v hnone hc hcell (by simpa using hw))
  unfold Tx.run
  rw [show (⟨⟨st, st.chain.getD .unset⟩, o, 0⟩ : Work) = ⟨st.cell, o, 0⟩ from rfl, hrun]

/-! ## Protected routes -/

/-- The key to verify under is one of the chain's, or there is none, which
the token is told as any other invalid signature. -/
theorem tokenKey_known {st : Store} (hkeyed : ∀ d, st.deletion = some d → d.Keyed)
    (device : Option String) :
    (∃ key, tokenKey st none device = .ok key ∧ st.Knows key) ∨
      tokenKey st none device = .error (err .tokenSignatureInvalid) := by
  unfold tokenKey
  split
  · rename_i _ d hd
    split
    · rename_i id
      by_cases hid : d.deletingDeviceId = some id
      · obtain ⟨key, hkey⟩ := Option.isSome_iff_exists.mp (hkeyed d hd (by rw [hid]; rfl))
        refine .inl ⟨key, ?_, .inr (.inr ⟨d, hd, .inr hkey⟩)⟩
        simp [hid, hkey, Check.bind_ok]
      · refine .inr ?_
        simp [Check.failIf, hid, bind, Except.bind]
    · exact .inl ⟨_, rfl, .inr (.inr ⟨d, hd, .inl rfl⟩)⟩
  · rename_i c _ hc
    split
    · rename_i id
      cases hobj : st.object .device id with
      | none => exact .inr rfl
      | some d => exact .inl ⟨_, rfl, .inr (.inl ⟨id, d, trivial, hobj, rfl⟩)⟩
    · exact .inl ⟨_, rfl, .inl ⟨c, hc, rfl⟩⟩
  · exact .inr rfl

/-- No key of the chain verifies the token of the request. -/
def Store.Foreign (X : Crypto) (st : Store) (q : Request) : Prop :=
  ∀ token, q.token = .ok token → ∀ key, st.Knows key →
    X.verifySignedJson key (s token "signature") token .capability = false

/-- A foreign token fails as it does towards no chain. -/
theorem tokenCheck_foreign {R : Relay} {st : Store} {q : Request} (barrier : Option Nat)
    (chainId : String) (t : Nat) (h : st.Foreign R.crypto q)
    (hkeyed : ∀ d, st.deletion = some d → d.Keyed) :
    tokenCheck R st barrier q chainId none t = tokenCheck R .blank barrier q chainId none t := by
  unfold tokenCheck
  cases hq : q.token with
  | error e => rfl
  | ok token =>
      show (tokenShape R.crypto token >>= _) = (tokenShape R.crypto token >>= _)
      refine bind_congr fun _ => bind_congr fun _ => bind_congr fun _ => bind_congr fun _ => ?_
      obtain ⟨key, hkey, hknown⟩ | hkey := tokenKey_known hkeyed (tokenDevice token)
      · rw [hkey]
        show (Check.failIf
          (!R.crypto.verifySignedJson key (s token "signature") token .capability) _ >>= _) = _
        rw [h token hq key hknown]
        rfl
      · rw [hkey]
        rfl

/-- No token passes towards a chain nobody proposes. -/
theorem tokenCheck_blank (R : Relay) (barrier : Option Nat) (q : Request) (chainId : String)
    (t : Nat) : ∃ e, tokenCheck R .blank barrier q chainId none t = .error e := by
  cases h : tokenCheck R .blank barrier q chainId none t with
  | error e => exact ⟨e, rfl⟩
  | ok token =>
      simp only [tokenCheck, Check.bind_ok] at h
      obtain ⟨_, -, _, -, _, -, _, -, _, -, key, hkey, -⟩ := h
      cases hkey

/-- A recorded deletion by a device keeps that device's key. -/
theorem store_keyed (X : Crypto) (cfg : RelayConfig) (es : List Event) (id : String) :
    ∀ d, (storeAfter X cfg es id).deletion = some d → d.Keyed := by
  refine store_invariant (P := fun st => ∀ d, st.deletion = some d → d.Keyed)
    (fun d hd => by cases hd) (fun R cause st st' h hst => ?_) es
  have same : st'.deletion = st.deletion → ∀ d, st'.deletion = some d → d.Keyed :=
    fun he d hd => hst d (he ▸ hd)
  cases h.commit with
  | execute _ he =>
      obtain he | ⟨-, d, hd, hk⟩ := he.deletion_or
      · exact same he
      · intro d' hd'
        obtain rfl := Option.some.inj (hd.symm.trans hd')
        exact hk
  | item _ _ _ hi hs => exact same (hs.deletion.trans hi.deletion)
  | evidence _ _ hm hs => exact same (hs.deletion.trans hm.deletion)
  | enrollment _ hs => exact same hs.deletion
  | expire _ hm => exact same hm.deletion
  | erase =>
      refine same ?_
      unfold Store.erase
      split <;> rfl
  | finish hf =>
      intro d' hd'
      unfold Store.finish at hf
      split at hf
      · obtain rfl := Except.ok.inj hf
        exact hst d' hd'
      · rename_i d hd
        split at hf
        · obtain ⟨proof, -, hf⟩ := Check.bind_ok.mp hf
          obtain rfl := Check.pure_ok.mp hf
          obtain rfl := Option.some.inj hd'
          exact hst d hd
        · obtain rfl := Except.ok.inj hf
          exact hst d' hd'

/-! ## Answers -/

/-- The task a request leaves: its answer, when it is refused at once. -/
def World.answer (X : Crypto) (w : World) (q : Request) (o : Oracle) : Option Task :=
  (w.step X (.request q o)).tasks[w.tasks.length]?

/-- The relay without its chains: configuration, barrier and rates stay. -/
def World.bare (w : World) : World where
  cfg := w.cfg
  chains := .empty
  desk := ⟨.empty, w.desk.rates⟩
  barrier := w.barrier
  tasks := []

/-- The request has nothing to show to the chain: no live offer of it at the
reading the relay takes, no key of it. -/
def Store.Excludes (X : Crypto) (st : Store) (q : Request) (o : Oracle) : Prop :=
  if q.route = .request then ∀ v, q.value = .ok v → ¬st.LiveOffer v ((o.sub 3).now 0)
  else st.Foreign X q

theorem Store.blank_not_live (v : Json) (t : Nat) : ¬Store.blank.LiveOffer v t := by
  rintro ⟨c, _, _, -, hc, -⟩
  cases hc

theorem tasks_spawn (w : World) (task : Task) :
    (w.spawn task).tasks[w.tasks.length]? = some task := by
  simp [World.spawn]

theorem stepEnrollment_excluded {w : World} {q : Request} {v : Json} {o : Oracle}
    (h : ¬(w.store q.chain).LiveOffer v ((o.sub 3).now 0)) :
    ∃ e, (w.stepEnrollment X q v o).tasks[w.tasks.length]? = some (.done (.problem e)) ∧
      (w.bare.stepEnrollment X q v o).tasks[0]? = some (.done (.problem e)) := by
  unfold World.stepEnrollment
  dsimp only
  rw [show w.bare.relay X = w.relay X from rfl, show w.bare.desk.rates = w.desk.rates from rfl]
  obtain ⟨r, rates⟩ := enrollmentRates (w.relay X) w.desk.rates q v (o.now 1) (o.now 2)
  cases r with
  | error e => exact ⟨e, tasks_spawn _ _, tasks_spawn _ _⟩
  | ok u =>
      have hw := enrollmentCandidate_absent (w.relay X) q.query v (o.sub 3) h
      have hbare := enrollmentCandidate_absent (w.relay X) q.query v (o.sub 3)
        (Store.blank_not_live v _)
      dsimp only
      rw [World.store_desk, hw, World.store_desk,
        show w.bare.store q.chain = .blank from rfl, hbare]
      exact ⟨_, tasks_spawn _ _, tasks_spawn _ _⟩

theorem authenticate_excluded {R : Relay} {st : Store} {barrier : Option Nat} {desk desk' : Desk}
    {q : Request} (chainId : String) (t t' : Nat) (h : st.Foreign R.crypto q)
    (hkeyed : ∀ d, st.deletion = some d → d.Keyed) :
    ∃ e, authenticate R st barrier desk q chainId none t t' = (.error e, desk) ∧
      authenticate R .blank barrier desk' q chainId none t t' = (.error e, desk') := by
  obtain ⟨e, he⟩ := tokenCheck_blank R barrier q chainId t
  refine ⟨e, ?_, ?_⟩
  · unfold authenticate
    rw [tokenCheck_foreign barrier chainId t h hkeyed, he]
  · unfold authenticate
    rw [he]

/-- An outsider is refused at once, as a relay without chains refuses it. -/
theorem answer_excluded {w : World} {q : Request} {o : Oracle}
    (hkeyed : ∀ d, (w.store q.chain).deletion = some d → d.Keyed)
    (hroute : q.route ≠ .genesis ∧ q.route ≠ .importChain)
    (h : (w.store q.chain).Excludes X q o) :
    ∃ e, w.answer X q o = some (.done (.problem e)) ∧
      w.bare.answer X q o = some (.done (.problem e)) := by
  unfold World.answer World.step World.stepRequest
  unfold Store.Excludes at h
  dsimp only
  rw [show w.bare.relay X = w.relay X from rfl, show w.bare.tasks.length = 0 from rfl]
  by_cases hopen : q.route = .request
  · rw [if_pos hopen] at h
    rw [if_pos hopen, if_pos hopen]
    cases hv : q.value with
    | error e => exact ⟨e, tasks_spawn _ _, tasks_spawn _ _⟩
    | ok v =>
        dsimp only
        cases (w.relay X).cfg.writeGuard (o.now 0) with
        | error e => exact ⟨_, tasks_spawn _ _, tasks_spawn _ _⟩
        | ok u => exact stepEnrollment_excluded (h v hv)
  · rw [if_neg hopen] at h
    rw [if_neg hopen, if_neg hopen]
    have hboot : ¬(q.route = .genesis ∨ q.route = .importChain) := fun hor =>
      hor.elim hroute.1 hroute.2
    cases hchain : requestChain X q with
    | error e => exact ⟨e, tasks_spawn _ _, tasks_spawn _ _⟩
    | ok p =>
        rw [requestChain, if_neg hboot] at hchain
        obtain ⟨_, -, hp⟩ := Check.bind_ok.mp hchain
        obtain rfl := Check.pure_ok.mp hp
        have hrefused : ∃ e,
            authenticate (w.relay X) (w.store q.chain) w.barrier w.desk q q.chain none
              (o.now 0) (o.now 1) = (.error e, w.desk) ∧
            authenticate (w.relay X) .blank w.barrier w.bare.desk q q.chain none
              (o.now 0) (o.now 1) = (.error e, w.bare.desk) :=
          authenticate_excluded q.chain (o.now 0) (o.now 1) h hkeyed
        obtain ⟨e, hw, hbare⟩ := hrefused
        dsimp only
        rw [hw, show w.bare.store q.chain = .blank from rfl,
          show w.bare.barrier = w.barrier from rfl, hbare]
        exact ⟨e, tasks_spawn _ _, tasks_spawn _ _⟩

namespace Sample

/-- As `crypto`, but a signature of the value 1 is the device's own, and one
of a greater value is nobody's. -/
def guarded : Crypto := { crypto with
  verifyStrict := fun key sig _ => narrow sig == 0 || narrow sig == 1 && narrow key == 5 }

/-- The admin stages the chain on a relay that has none. -/
def stagedRun : List Event := perform 0 0 (importRequest [epoch0])

/-- The same import without an epoch is refused; its token was good. -/
def refusedRun : List Event := perform 0 0 (importRequest [])

def headPath : String := chainPath ++ "/" ++ chainId ++ "/head"

/-- A token in the name of the first device asks for the head. -/
def headRequest (signature : String) : Request :=
  request .head "GET" headPath
    ((token 9 (some 1) "GET" headPath).set "signature" (.str signature)) "" .null

deriving instance DecidableEq for RateRow

theorem perform_settled (w : World) (i k : Nat) (q : Request) :
    (run (World.step guarded) w (perform i k q)).cfg = w.cfg ∧
      (run (World.step guarded) w (perform i k q)).barrier = w.barrier :=
  have hq := World.stepRequest_settled (X := guarded) (w := w) q (oracle 1500 (2 * k))
  have ht := World.stepTask_shares (X := guarded)
    (w := w.stepRequest guarded q (oracle 1500 (2 * k))) i (oracle 1500 (2 * k + 1)) .none
  ⟨ht.cfg.trans hq.2, ht.barrier.trans hq.1⟩

/-- The two relays share what an answer to an outsider may depend on. -/
theorem stagedRun_alike :
    (World.after guarded cfg stagedRun).cfg = (World.after guarded cfg refusedRun).cfg ∧
    (World.after guarded cfg stagedRun).barrier = (World.after guarded cfg refusedRun).barrier ∧
    (World.after guarded cfg stagedRun).desk.rates =
      (World.after guarded cfg refusedRun).desk.rates := by
  have hstaged := perform_settled (.initial cfg) 0 0 (importRequest [epoch0])
  have hrefused := perform_settled (.initial cfg) 0 0 (importRequest [])
  have hrows : (World.after guarded cfg stagedRun).desk.rates.rows =
      (World.after guarded cfg refusedRun).desk.rates.rows := by decide +kernel
  refine ⟨hstaged.1.trans hrefused.1.symm, hstaged.2.trans hrefused.2.symm, ?_⟩
  generalize (World.after guarded cfg stagedRun).desk.rates = t at hrows
  generalize (World.after guarded cfg refusedRun).desk.rates = t' at hrows
  cases t
  cases t'
  cases hrows
  rfl

theorem nobody_signed (key : String) (v : Json) :
    guarded.verifySignedJson key "b2" v .capability = false := by
  cases v with
  | obj ms =>
      show guarded.verifySignature key "b2" _ = false
      unfold Crypto.verifySignature
      rw [show guarded.decode "b2" (some 64) = some (wide 64 2) by decide +kernel]
      split
      · rename_i hb
        cases hb
        rw [show guarded.verifyStrict _ (wide 64 2) _ = false from rfl, Bool.and_false]
      · rfl
  | null | bool _ | num _ | str _ | arr _ => rfl

/-- The code of the refusal a request leaves. -/
def refusal (es : List Event) (q : Request) : Option Code :=
  match (World.after guarded cfg es).answer guarded q (oracle 1500 9) with
  | some (.done (.problem e)) => some e.code
  | _ => none

/-- No device is registered, nothing is deleted, and the admin's key is `adminKey`. -/
def onlyAdmin (st : Store) : Bool :=
  st.registry.rows.isEmpty && st.deletion.isNone &&
    st.chain.all fun c => c.adminPublicKey == adminKey

theorem registers_onlyAdmin {st : Store} (h : onlyAdmin st = true) {key : String}
    (hkey : st.Registers key) : key = adminKey := by
  simp only [onlyAdmin, Bool.and_eq_true, List.isEmpty_iff, Option.isNone_iff_eq_none] at h
  obtain ⟨⟨hreg, hdel⟩, hadmin⟩ := h
  obtain ⟨c, hc, rfl⟩ | ⟨id, d, hid, -⟩ | ⟨d, hd, -⟩ := hkey
  · rw [hc] at hadmin
    exact eq_of_beq hadmin
  · have hnone : st.registry.find? id = none := by
      rw [Table.find?, hreg]
      rfl
    rw [Store.status, hnone] at hid
    cases hid
  · rw [hdel] at hd
    cases hd

theorem stagedRun_facts :
    onlyAdmin (storeAfter guarded cfg stagedRun chainId) = true ∧
    onlyAdmin (storeAfter guarded cfg refusedRun chainId) = true ∧
    refusal stagedRun (headRequest "b1") = some .deviceUnknown ∧
    refusal refusedRun (headRequest "b1") = some .tokenSignatureInvalid := by
  decide +kernel

end Sample

/-- Whether the relay has the chain is not told to outsiders: two relays with
the same configuration, barrier and rates answer them alike. -/
theorem existence_hidden (X : Crypto) (cfg cfg' : RelayConfig) (es es' : List Event) (q : Request)
    (o : Oracle) (hcfg : (World.after X cfg es).cfg = (World.after X cfg' es').cfg)
    (hbarrier : (World.after X cfg es).barrier = (World.after X cfg' es').barrier)
    (hrates : (World.after X cfg es).desk.rates = (World.after X cfg' es').desk.rates)
    (hroute : q.route ≠ .genesis ∧ q.route ≠ .importChain)
    (h : (storeAfter X cfg es q.chain).Excludes X q o)
    (h' : (storeAfter X cfg' es' q.chain).Excludes X q o) :
    ∃ e, (World.after X cfg es).answer X q o = some (.done (.problem e)) ∧
      (World.after X cfg' es').answer X q o = some (.done (.problem e)) := by
  obtain ⟨e, hw, hbare⟩ := answer_excluded (store_keyed X cfg es q.chain) hroute h
  obtain ⟨e', hw', hbare'⟩ := answer_excluded (store_keyed X cfg' es' q.chain) hroute h'
  have he : (World.after X cfg es).bare = (World.after X cfg' es').bare := by
    unfold World.bare
    rw [hcfg, hbarrier, hrates]
  rw [he, hbare'] at hbare
  cases hbare
  exact ⟨e, hw, hw'⟩

/-- A relay with the chain staged and one without it, asked with a token that
nobody signed. -/
theorem existence_hidden_run :
    ∃ e, (World.after Sample.guarded Sample.cfg Sample.stagedRun).answer Sample.guarded
        (Sample.headRequest "b2") (Sample.oracle 1500 9) = some (.done (.problem e)) ∧
      (World.after Sample.guarded Sample.cfg Sample.refusedRun).answer Sample.guarded
        (Sample.headRequest "b2") (Sample.oracle 1500 9) = some (.done (.problem e)) := by
  obtain ⟨hcfg, hbarrier, hrates⟩ := Sample.stagedRun_alike
  have hexcl : ∀ st : Store,
      st.Excludes Sample.guarded (Sample.headRequest "b2") (Sample.oracle 1500 9) := fun st => by
    rw [Store.Excludes, if_neg (by decide)]
    rintro _ ⟨rfl⟩ key -
    exact Sample.nobody_signed key _
  exact existence_hidden Sample.guarded Sample.cfg Sample.cfg Sample.stagedRun Sample.refusedRun
    (Sample.headRequest "b2") (Sample.oracle 1500 9) hcfg hbarrier hrates
    ⟨by decide, by decide⟩ (hexcl _) (hexcl _)

/-- A device that is only staged is told that it is unknown, which a relay
without the chain does not say; no registered key signed the token. -/
theorem staged_device_recognized : ∃ es es' q o e e',
    (World.after Sample.guarded Sample.cfg es).cfg =
      (World.after Sample.guarded Sample.cfg es').cfg ∧
    (World.after Sample.guarded Sample.cfg es).barrier =
      (World.after Sample.guarded Sample.cfg es').barrier ∧
    (World.after Sample.guarded Sample.cfg es).desk.rates =
      (World.after Sample.guarded Sample.cfg es').desk.rates ∧
    (q.route ≠ .genesis ∧ q.route ≠ .importChain ∧ q.route ≠ .request) ∧
    (∀ token, q.token = .ok token → ∀ key,
      (storeAfter Sample.guarded Sample.cfg es q.chain).Registers key ∨
        (storeAfter Sample.guarded Sample.cfg es' q.chain).Registers key →
      Sample.guarded.verifySignedJson key (s token "signature") token .capability = false) ∧
    (World.after Sample.guarded Sample.cfg es).answer Sample.guarded q o =
      some (.done (.problem e)) ∧
    (World.after Sample.guarded Sample.cfg es').answer Sample.guarded q o =
      some (.done (.problem e')) ∧ e.code ≠ e'.code := by
  obtain ⟨hcfg, hbarrier, hrates⟩ := Sample.stagedRun_alike
  obtain ⟨hstaged, hrefused, hseen, hunseen⟩ := Sample.stagedRun_facts
  unfold Sample.refusal at hseen hunseen
  split at hseen
  · rename_i e he
    split at hunseen
    · rename_i e' he'
      refine ⟨_, _, Sample.headRequest "b1", _, e, e', hcfg, hbarrier, hrates, by decide, ?_, he,
        he', ?_⟩
      · rintro _ ⟨rfl⟩ key hkey
        obtain rfl : key = Sample.adminKey := hkey.elim (Sample.registers_onlyAdmin hstaged)
          (Sample.registers_onlyAdmin hrefused)
        decide +kernel
      · rw [Option.some.inj hseen, Option.some.inj hunseen]
        decide
    · cases hunseen
  · cases hseen

end PallaSync
