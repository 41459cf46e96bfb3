import PallaSync.LegacyPages

/-!
# Legacy tokens are used once

A token that was accepted leaves a row in the table of nonces, and the row stays
until its expiry has passed. Every request purges the expired rows, at a clock
reading later than the one the token's own window was tested at: a token that
expires between these two readings has its own row purged and is accepted again.
When no request comes to that, no token is accepted twice.
-/

namespace PallaSync

namespace Legacy

/-! ## What an accepted request has done -/

/-- The row a token leaves. -/
def tokenRow (token : Json) : NonceRow where
  chainId := s token "chain_id"
  deviceId := s token "device_id"
  nonce := s token "nonce"
  expiresAtMs := n token "expires_at_ms"

/-- The rows a purge keeps. -/
def kept (db : Tables) (t : Readings) : Table NonceRow NonceRow.key :=
  db.nonces.delete fun r => decide (r.expiresAtMs ≤ t.purge)

theorem asNat_n {token : Json} {key : String} {k : Nat} (h : (token.get key).asNat = some k) :
    n token key = k := by
  rw [n, h, Option.getD_some]

theorem asStr_s {token : Json} {key : String} {x : String} (h : (token.get key).asStr = some x) :
    s token key = x := by
  rw [s, h, Option.getD_some]

theorem tokenBinding_chain {X : Crypto} {chain : String} {q : Request} {token : Json} {u : Unit}
    (h : tokenBinding X chain q token = .ok u) : s token "chain_id" = chain := by
  unfold tokenBinding at h
  split at h
  · have hall := Check.failIf_ok.mp h
    simp only [Bool.or_eq_false_iff, bne_eq_false_iff_eq] at hall
    obtain ⟨⟨⟨⟨⟨-, hchain⟩, -⟩, -⟩, -⟩, -⟩ := hall
    rw [s, hchain]
    rfl
  · cases h

/-- A token that authenticates is inside its window and leaves its row. -/
theorem authenticate_ok {X : Crypto} {db : Tables} {chain : String} {q : Request} {t : Readings}
    {id : String} {nonces : Table NonceRow NonceRow.key}
    (h : authenticate X db chain q t = .ok (id, nonces)) :
    ∃ token, q.token = some token ∧ s token "chain_id" = chain ∧
      t.expires < n token "expires_at_ms" ∧ (kept db t).insert? (tokenRow token) = some nonces := by
  unfold authenticate at h
  obtain ⟨token, htoken, h⟩ := Check.bind_ok.mp h
  obtain ⟨_, hbinding, h⟩ := Check.bind_ok.mp h
  obtain ⟨issued, -, h⟩ := Check.bind_ok.mp h
  obtain ⟨expires, hexpires, h⟩ := Check.bind_ok.mp h
  obtain ⟨_, hfresh, h⟩ := Check.bind_ok.mp h
  obtain ⟨device, hdevice, h⟩ := Check.bind_ok.mp h
  obtain ⟨nonce, hnonce, h⟩ := Check.bind_ok.mp h
  obtain ⟨_, -, h⟩ := Check.bind_ok.mp h
  obtain ⟨row, -, h⟩ := Check.bind_ok.mp h
  obtain ⟨_, -, h⟩ := Check.bind_ok.mp h
  obtain ⟨signature, -, h⟩ := Check.bind_ok.mp h
  obtain ⟨_, -, h⟩ := Check.bind_ok.mp h
  obtain ⟨left, hleft, h⟩ := Check.bind_ok.mp h
  obtain ⟨rfl, rfl⟩ := Prod.mk.inj (Except.ok.inj h)
  have hchain := tokenBinding_chain hbinding
  have hwithin := Check.failIf_ok.mp hfresh
  simp only [Bool.or_eq_false_iff, decide_eq_false_iff_not, not_le] at hwithin
  rw [Check.require_ok] at htoken hexpires hdevice hnonce hleft
  have hrow : tokenRow token =
      { chainId := chain, deviceId := device, nonce, expiresAtMs := expires } := by
    rw [tokenRow, hchain, asStr_s hdevice, asStr_s hnonce, asNat_n hexpires]
  refine ⟨token, htoken, hchain, ?_, ?_⟩
  · rw [asNat_n hexpires]
    exact hwithin.1.1.2
  · rw [hrow]
    exact hleft

/-- The chain is marked deleted. -/
def Deleted (db : Tables) (chain : String) : Prop :=
  ∃ row, db.chains.find? chain = some row ∧ row.deletedAtMs.isSome

theorem deleteChain_chains (db : Tables) (chain : String) (t : Nat) (k : String) :
    (deleteChain db chain t).chains.find? k = (db.chains.find? k).map fun r =>
      if r.chainId == chain && r.deletedAtMs.isNone then { r with deletedAtMs := some t } else r :=
  Table.find?_update (f := fun r : ChainRow => { r with deletedAtMs := some t }) fun _ => rfl

theorem deleteChain_deleted {db : Tables} {chain : String} {row : ChainRow} (t : Nat)
    (h : db.chains.find? chain = some row) : Deleted (deleteChain db chain t) chain := by
  have hkey : row.chainId = chain := Table.key_of_find? h
  refine ⟨_, by rw [deleteChain_chains, h, Option.map_some], ?_⟩
  cases hrow : row.deletedAtMs with
  | none => simp [hkey]
  | some t' => simp [hrow]

theorem Deleted.deleteChain {db : Tables} {chain : String} (h : Deleted db chain)
    (chain' : String) (t : Nat) : Deleted (deleteChain db chain' t) chain := by
  obtain ⟨row, hrow, hdeleted⟩ := h
  refine ⟨_, by rw [deleteChain_chains, hrow, Option.map_some], ?_⟩
  cases hat : row.deletedAtMs with
  | none => simp [hat] at hdeleted
  | some t' => simp [hat]

/-- What a request that is served by a token has found and left: the token
authenticated, and its row is left unless the chain was deleted. -/
theorem transaction_ok {S : Service} {db db' : Tables} {q : Request} {t : Readings}
    {chain : String} {e : Endpoint} {query : Query} {out : Response} (he : e ≠ .parameters)
    (h : transaction S db q t chain e query = .ok (db', out)) :
    ¬ Deleted db chain ∧ ∃ token nonces, q.token = some token ∧ s token "chain_id" = chain ∧
      t.expires < n token "expires_at_ms" ∧ (kept db t).insert? (tokenRow token) = some nonces ∧
      (db'.nonces = nonces ∧ db'.chains = db.chains ∨
        Deleted db' chain ∧ ∃ rates,
          db' = deleteChain { db with nonces, rates } chain t.answer) := by
  unfold transaction at h
  obtain ⟨row, hrow, h⟩ := Check.bind_ok.mp h
  obtain ⟨_, hgone, h⟩ := Check.bind_ok.mp h
  rw [if_neg he] at h
  obtain ⟨⟨id, nonces⟩, hauth, h⟩ := Check.bind_ok.mp h
  obtain ⟨rates, -, h⟩ := Check.bind_ok.mp h
  obtain ⟨token, htoken, hchain, hwithin, hinsert⟩ := authenticate_ok hauth
  have hfound := Check.require_ok.mp hrow
  refine ⟨?_, token, nonces, htoken, hchain, hwithin, hinsert, ?_⟩
  · rintro ⟨row', hrow', hdeleted⟩
    obtain rfl := Option.some.inj (hfound.symm.trans hrow')
    rw [Check.failIf_ok.mp hgone] at hdeleted
    cases hdeleted
  · cases e with
    | parameters => exact absurd rfl he
    | devices =>
        obtain ⟨rfl, rfl⟩ := Prod.mk.inj (Except.ok.inj h)
        exact .inl ⟨rfl, rfl⟩
    | records =>
        obtain ⟨page, -, h⟩ := Check.bind_ok.mp h
        obtain ⟨rfl, rfl⟩ := Prod.mk.inj (Except.ok.inj h)
        exact .inl ⟨rfl, rfl⟩
    | delete =>
        obtain ⟨rfl, rfl⟩ := Prod.mk.inj (Except.ok.inj h)
        exact .inr ⟨deleteChain_deleted _ hfound, rates, rfl⟩

/-- A request for the parameters changes no frozen table. -/
theorem transaction_parameters {S : Service} {db db' : Tables} {q : Request} {t : Readings}
    {chain : String} {query : Query} {out : Response}
    (h : transaction S db q t chain .parameters query = .ok (db', out)) : db' = db := by
  unfold transaction at h
  obtain ⟨row, -, h⟩ := Check.bind_ok.mp h
  obtain ⟨_, -, h⟩ := Check.bind_ok.mp h
  rw [if_pos rfl] at h
  obtain ⟨value, -, h⟩ := Check.bind_ok.mp h
  obtain ⟨rfl, -⟩ := Prod.mk.inj (Except.ok.inj h)
  rfl

/-! ## Spent tokens -/

/-- A token is spent at a clock reading: its chain is deleted, its window is
over, or its row is there. -/
def Spent (db : Tables) (now : Nat) (token : Json) : Prop :=
  Deleted db (s token "chain_id") ∨ n token "expires_at_ms" ≤ now ∨ tokenRow token ∈ db.nonces

theorem Spent.later {db : Tables} {now now' : Nat} {token : Json} (h : Spent db now token)
    (hle : now ≤ now') : Spent db now' token := by
  rcases h with h | h | h
  · exact .inl h
  · exact .inr (.inl (h.trans hle))
  · exact .inr (.inr h)

/-- A spent token survives a purge unless its window is over. -/
theorem Spent.kept {db : Tables} {now : Nat} {token : Json} {t : Readings}
    (h : Spent db now token) (hle : now ≤ t.purge) :
    Deleted db (s token "chain_id") ∨ n token "expires_at_ms" ≤ t.purge ∨
      tokenRow token ∈ kept db t := by
  rcases h with h | h | h
  · exact .inl h
  · exact .inr (.inl (h.trans hle))
  · by_cases hpast : n token "expires_at_ms" ≤ t.purge
    · exact .inr (.inl hpast)
    · have hkeep : decide ((tokenRow token).expiresAtMs ≤ t.purge) = false :=
        decide_eq_false hpast
      exact .inr (.inr (Table.mem_delete.mpr ⟨h, hkeep⟩))

/-- A spent token stays spent. -/
theorem Spent.transacted {S : Service} {db db' : Tables} {q : Request} {t : Readings}
    {chain : String} {e : Endpoint} {query : Query} {out : Response} {now : Nat} {token : Json}
    (h : transaction S db q t chain e query = .ok (db', out)) (hspent : Spent db now token)
    (hpurge : now ≤ t.purge) (hanswer : t.purge ≤ t.answer) : Spent db' t.answer token := by
  by_cases he : e = .parameters
  · subst he
    rw [transaction_parameters h]
    exact hspent.later (hpurge.trans hanswer)
  obtain ⟨-, token', nonces, -, -, -, hinsert, hleft⟩ := transaction_ok he h
  have hmem : ∀ r, r ∈ Legacy.kept db t → r ∈ nonces :=
    fun r hr => ((Table.insert?_eq_some hinsert).2 r).mpr (.inl hr)
  rcases hspent.kept hpurge with hdeleted | hpast | hrow
  · refine .inl ?_
    rcases hleft with ⟨-, hchains⟩ | ⟨-, rates, rfl⟩
    · obtain ⟨row, hrow, hat⟩ := hdeleted
      exact ⟨row, by rw [hchains]; exact hrow, hat⟩
    · obtain ⟨row, hrow, hat⟩ := hdeleted
      exact Deleted.deleteChain ⟨row, hrow, hat⟩ _ _
  · exact .inr (.inl (hpast.trans hanswer))
  · rcases hleft with ⟨hnonces, -⟩ | ⟨hdeleted, rates, rfl⟩
    · exact .inr (.inr (hnonces ▸ hmem _ hrow))
    · -- deleting the chain drops its rows, and then the chain is gone
      by_cases hchain : s token "chain_id" = chain
      · exact .inl (hchain ▸ hdeleted)
      · have hkeep : ((tokenRow token).chainId == chain) = false := beq_eq_false_iff_ne.mpr hchain
        exact .inr (.inr (Table.mem_delete.mpr ⟨hmem _ hrow, hkeep⟩))

/-! ## Runs of requests -/

/-- The token a request's answer rests on. -/
def authenticatedBy (S : Service) (q : Request) : Option Json :=
  match target q S.crypto with
  | .ok (some (_, e, _)) => if e = .parameters then none else q.token
  | _ => none

/-- The token that a request was served by. -/
def served (S : Service) (db : Tables) (q : Request) (t : Readings) : Option Json :=
  if (run S db q t).2.isOk then authenticatedBy S q else none

/-- The tokens the requests of a run are served by, in order. -/
def servedTokens (S : Service) : Tables → List (Request × Readings) → List Json
  | _, [] => []
  | db, (q, t) :: rest => (served S db q t).toList ++ servedTokens S (run S db q t).1 rest

/-- No clock reading is smaller than one before it. -/
def Ascending (steps : List (Request × Readings)) : Prop :=
  (steps.flatMap fun step => step.2.list).Pairwise (· ≤ ·)

/-- The token does not expire between the test of its window and the purge. -/
def Timely (step : Request × Readings) : Prop :=
  ∀ token, step.1.token = some token →
    step.2.expires < n token "expires_at_ms" → step.2.purge < n token "expires_at_ms"

theorem publicRate_ok {S : Service} {db db' : Tables} {q : Request} {t : Readings}
    (h : publicRate S db q t = .ok db') : ∃ rates, db' = { db with rates } := by
  unfold publicRate at h
  split at h
  · split at h
    · exact ⟨_, (Except.ok.inj h).symm⟩
    · cases h
  · exact ⟨db.rates, (Except.ok.inj h).symm⟩

/-- The ways of a request: it is answered without touching the frozen tables
and, if well, not by a token; or its transaction commits. -/
theorem run_cases (S : Service) (db : Tables) (q : Request) (t : Readings) :
    (∃ rates out, run S db q t = ({ db with rates }, out) ∧
        (out.isOk → authenticatedBy S q = none)) ∨
      ∃ rates chain e query db' out, target q S.crypto = .ok (some (chain, e, query)) ∧
        transaction S { db with rates } q t chain e query = .ok (db', out) ∧
        run S db q t = (db', out) := by
  unfold run
  cases wellFormed S q with
  | error code => exact .inl ⟨db.rates, _, rfl, fun h => by cases h⟩
  | ok _ =>
      cases hrate : publicRate S db q t with
      | error code => exact .inl ⟨db.rates, _, rfl, fun h => by cases h⟩
      | ok db₁ =>
          obtain ⟨rates, rfl⟩ := publicRate_ok hrate
          cases htarget : target q S.crypto with
          | error code =>
              dsimp only
              exact .inl ⟨rates, _, rfl, fun h => by cases h⟩
          | ok found =>
              rcases found with _ | ⟨chain, e, query⟩
              · dsimp only
                exact .inl ⟨rates, _, rfl, fun _ => by rw [authenticatedBy, htarget]⟩
              · cases htx : transaction S { db with rates } q t chain e query with
                | error code =>
                    simp only [htx]
                    exact .inl ⟨rates, _, rfl, fun h => by cases h⟩
                | ok done =>
                    obtain ⟨db', out⟩ := done
                    simp only [htx]
                    exact .inr ⟨rates, chain, e, query, db', out, rfl, htx, rfl⟩

theorem Spent.ran {S : Service} {db : Tables} {q : Request} {t : Readings} {now : Nat}
    {token : Json} (hspent : Spent db now token) (hpurge : now ≤ t.purge)
    (hanswer : t.purge ≤ t.answer) : Spent (run S db q t).1 t.answer token := by
  rcases run_cases S db q t with ⟨rates, out, hrun, -⟩ |
    ⟨rates, chain, e, query, db', out, -, htx, hrun⟩
  · rw [hrun]
    exact hspent.later (hpurge.trans hanswer)
  · rw [hrun]
    have hshared : Spent { db with rates } now token := hspent
    exact hshared.transacted htx hpurge hanswer

/-- A request that a token served, as its transaction found and left the tables. -/
theorem served_some {S : Service} {db : Tables} {q : Request} {t : Readings} {token : Json}
    (h : served S db q t = some token) :
    q.token = some token ∧ ¬ Deleted db (s token "chain_id") ∧
      t.expires < n token "expires_at_ms" ∧
      ∃ nonces, (kept db t).insert? (tokenRow token) = some nonces ∧
        ((run S db q t).1.nonces = nonces ∨ Deleted (run S db q t).1 (s token "chain_id")) := by
  unfold served at h
  split at h
  · rename_i hok
    rcases run_cases S db q t with ⟨rates, out, hrun, hnone⟩ |
      ⟨rates, chain, e, query, db', out, htarget, htx, hrun⟩
    · rw [hrun] at hok
      rw [hnone hok] at h
      cases h
    · rw [authenticatedBy, htarget] at h
      dsimp only at h
      split at h
      · cases h
      · rename_i he
        obtain ⟨hlive, token', nonces, htoken, hchain, hwithin, hinsert, hleft⟩ :=
          transaction_ok he htx
        obtain rfl := Option.some.inj (h.symm.trans htoken)
        refine ⟨h, hchain ▸ hlive, hwithin, nonces, hinsert, ?_⟩
        rw [hrun]
        rcases hleft with ⟨hnonces, -⟩ | ⟨hdeleted, -⟩
        · exact .inl hnonces
        · exact .inr (hchain ▸ hdeleted)
  · cases h

theorem Spent.of_served {S : Service} {db : Tables} {q : Request} {t : Readings} {token : Json}
    (h : served S db q t = some token) : Spent (run S db q t).1 t.answer token := by
  obtain ⟨-, -, -, nonces, hinsert, hnonces | hdeleted⟩ := served_some h
  · exact .inr (.inr (hnonces ▸ ((Table.insert?_eq_some hinsert).2 _).mpr (.inr rfl)))
  · exact .inl hdeleted

/-- A spent token serves no timely request. -/
theorem Spent.unserved {S : Service} {db : Tables} {q : Request} {t : Readings} {token : Json}
    {now : Nat} (hspent : Spent db now token) (hexpires : now ≤ t.expires)
    (hpurge : t.expires ≤ t.purge) (htimely : Timely (q, t)) : served S db q t ≠ some token := by
  intro h
  obtain ⟨htoken, hlive, hwithin, nonces, hinsert, -⟩ := served_some h
  have hlater := htimely token htoken hwithin
  rcases hspent.kept (hexpires.trans hpurge) with hdeleted | hpast | hrow
  · exact hlive hdeleted
  · exact absurd hlater (Nat.not_lt.mpr hpast)
  · exact (Table.insert?_eq_some hinsert).1 _ hrow rfl

/-! ## The run -/

theorem ascending_cons {q : Request} {t : Readings} {rest : List (Request × Readings)}
    (h : Ascending ((q, t) :: rest)) :
    t.expires ≤ t.purge ∧ t.purge ≤ t.answer ∧ Ascending rest ∧
      ∀ step ∈ rest, t.answer ≤ step.2.expires := by
  unfold Ascending at h
  rw [List.flatMap_cons, List.pairwise_append] at h
  obtain ⟨hown, hrest, hbetween⟩ := h
  simp only [Readings.list, List.pairwise_cons, List.mem_cons, List.not_mem_nil] at hown
  obtain ⟨-, -, hexpires, hpurge, -⟩ := hown
  refine ⟨hexpires _ (.inl rfl), hpurge _ (.inr (.inl rfl)), hrest, fun step hstep => ?_⟩
  refine hbetween t.answer (by simp [Readings.list]) _ (List.mem_flatMap.mpr ⟨step, hstep, ?_⟩)
  simp [Readings.list]

theorem Spent.unserved_run {S : Service} {steps : List (Request × Readings)} {db : Tables}
    {now : Nat} {token : Json} (hspent : Spent db now token) (hclock : Ascending steps)
    (hnow : ∀ step ∈ steps, now ≤ step.2.expires) (htimely : ∀ step ∈ steps, Timely step) :
    token ∉ servedTokens S db steps := by
  induction steps generalizing db now with
  | nil => exact List.not_mem_nil
  | cons step rest ih =>
      obtain ⟨q, t⟩ := step
      obtain ⟨hpurge, hanswer, hrest, hlater⟩ := ascending_cons hclock
      have hexpires := hnow _ List.mem_cons_self
      rw [servedTokens, List.mem_append, Option.mem_toList]
      rintro (hserved | hserved)
      · exact hspent.unserved hexpires hpurge (htimely _ List.mem_cons_self) hserved
      · exact ih (hspent.ran (hexpires.trans hpurge) hanswer) hrest hlater
          (fun step hstep => htimely step (List.mem_cons_of_mem _ hstep)) hserved

/-- In every run of legacy requests in which no token expires between the test
of its window and the purge of the same request, no token is served twice. -/
theorem legacy_single_use (S : Service) (db : Tables) (steps : List (Request × Readings))
    (hclock : Ascending steps) (htimely : ∀ step ∈ steps, Timely step) :
    (servedTokens S db steps).Nodup := by
  induction steps generalizing db with
  | nil => exact List.nodup_nil
  | cons step rest ih =>
      obtain ⟨q, t⟩ := step
      obtain ⟨-, -, hrest, hlater⟩ := ascending_cons hclock
      have htimely' : ∀ step ∈ rest, Timely step :=
        fun step hstep => htimely step (List.mem_cons_of_mem _ hstep)
      rw [servedTokens, List.nodup_append]
      refine ⟨?_, ih _ hrest htimely', fun token hserved token' hserved' heq => ?_⟩
      · cases served S db q t with
        | none => exact List.nodup_nil
        | some token => exact List.nodup_singleton token
      · subst heq
        exact (Spent.of_served (Option.mem_toList.mp hserved)).unserved_run hrest hlater htimely'
          hserved'

namespace Sample

def devicesPath : String := "/pallasync/v2/chains/a1/devices"

/-- A token whose window is [10, 100). -/
def token : Json := .obj [
  ("body_sha256", .str (PallaSync.Sample.crypto.hashBytes [])), ("chain_id", .str "a1"),
  ("device_id", .str "u1"), ("expires_at_ms", .num 100), ("issued_at_ms", .num 10),
  ("method", .str "GET"), ("nonce", .str "d1"), ("path", .str devicesPath), ("query", .str ""),
  ("signature", .str "b0"), ("v", .num 1)]

def request : Request := ⟨"GET", devicesPath, none, 0, none, "local", some token⟩

/-- One chain with one active device. -/
def tables : Tables where
  chains := ⟨[⟨"a1", none⟩], by decide⟩
  devices := ⟨[⟨"a1", "u1", "a5", "z0", "c0", "active", 0, 0, "b0"⟩], by decide⟩
  records := .empty
  nonces := .empty
  evidence := .empty
  rates := .empty

/-- Every reading is the same. -/
def still (t : Nat) : Readings := ⟨t, t, t, t, t, t⟩

/-- The clock reaches the expiry between the test of the window and the purge. -/
def overtaken : Readings := ⟨99, 99, 99, 100, 100, 100⟩

end Sample

/-- A token is served once, and refused when it comes again in time. -/
theorem legacy_single_use_refused :
    servedTokens (Sample.service 4096) Sample.tables
        [(Sample.request, Sample.still 50), (Sample.request, Sample.still 60)] = [Sample.token] ∧
      (servedTokens (Sample.service 4096) Sample.tables
        [(Sample.request, Sample.still 50), (Sample.request, Sample.still 60)]).Nodup := by
  refine ⟨by decide +kernel, legacy_single_use _ _ _ ?_ ?_⟩
  · unfold Ascending
    decide
  · intro step hstep token htoken hexpires
    simp only [List.mem_cons, List.not_mem_nil, or_false] at hstep
    rcases hstep with rfl | rfl
    · exact hexpires
    · exact hexpires

/-- A token that expires between the test of its window and the purge purges its
own row and is served again. -/
theorem legacy_single_use_overtaken :
    Ascending [(Sample.request, Sample.still 50), (Sample.request, Sample.overtaken)] ∧
      servedTokens (Sample.service 4096) Sample.tables
        [(Sample.request, Sample.still 50), (Sample.request, Sample.overtaken)] =
          [Sample.token, Sample.token] := by
  refine ⟨?_, by decide +kernel⟩
  unfold Ascending
  decide

end Legacy

end PallaSync
