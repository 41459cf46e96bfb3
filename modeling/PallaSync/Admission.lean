import PallaSync.Barrier
import PallaSync.Repair

/-!
# Where records come from

A record that the relay holds, in a row or in a log entry, was uploaded by its
author in some earlier state of the run, under the epoch and the generation of
the chain as they were then, and not after the author was barred
(`records_legitimate`). No other transaction brings a record: neither an import
nor a repair nor a re-seed.
-/

namespace PallaSync

open Atomic Machine

/-- A record that may enter the log: by an active device, under the epoch of the
chain, with a nonce that no other record has. -/
structure RecordOk (X : Crypto) (st : Store) (c : Chain) (r : Json) : Prop where
  wellFormed : validate X r .record = .ok ()
  chain : s r "chain_id" = c.chainId
  generation : n r "generation" = c.generation
  epoch : n r "epoch" = n c.epoch "epoch"
  author : ∃ d, st.object .device (s r "device_id") = some d ∧ n d "generation" = c.generation ∧
    verify X r (s d "device_public_key") .syncRecord = .ok ()
  active : st.status (s r "device_id") = some .active
  tag : tagAllowed c.parameters r = true
  nonce : ∀ owner, st.nonceOwner (n r "epoch") (s r "payload_nonce") = some owner →
    owner = s r "record_id"

/-- The event uploads the record `r`, by its author, and the next position of the
log is given to it. -/
structure Uploads (X : Crypto) (cfg : RelayConfig) (id : String) (es : List Event) (ev : Event)
    (r : Json) : Prop where
  fresh : ¬(storeAfter X cfg es id).Has .record r
  author : ∃ call index, (World.after X cfg es).uploading ev = some (call, index, r) ∧
    call.chain = id ∧ call.route = .recordsPost ∧ call.auth.device = some (s r "device_id")
  checked : ∃ c, (storeAfter X cfg es id).chain = some c ∧ c.writable = true ∧
    RecordOk X (storeAfter X cfg es id) c r ∧
    ∃ e, (storeAfter X cfg (es ++ [ev]) id).logEntry c.logId (c.headSeq + 1) = some e ∧
      e.kind = .record ∧ e.object = r

section Records

variable {X : Crypto} {R : Relay} {st : Store} {c : Chain} {auth : Auth} {r : Json}

/-- A device's record is a known one, or passes every check. -/
theorem record_uploaded {staged duplicate : Bool} (hadmin : auth.admin = false)
    (h : record X st c r auth false staged = .ok duplicate) :
    auth.device = some (s r "device_id") ∧
      ((st.objects.find? (.record, s r "record_id")).isSome ∨ RecordOk X st c r) := by
  simp only [record, Check.bind_ok, Check.failIf_ok, hadmin, Bool.not_false, Bool.true_and,
    bne_eq_false_iff_eq] at h
  obtain ⟨_, hvalid, _, hchain, _, hdevice, h⟩ := h
  refine ⟨hdevice, ?_⟩
  cases hdigest : st.objectDigest .record (s r "record_id") with
  | some digest =>
      obtain ⟨o, ho, -⟩ := objectDigest_eq_some.mp hdigest
      exact .inl (by rw [ho]; rfl)
  | none =>
      simp only [Bool.false_eq_true, if_false, hdigest, Bool.and_false, Bool.false_and,
        Check.bind_ok] at h
      obtain ⟨_, hcurrent, _, hnonce, -⟩ := h
      simp only [currentRecord, Check.bind_ok, Check.failIf_ok, bne_eq_false_iff_eq,
        Bool.not_eq_eq_eq_not, Bool.not_false] at hcurrent
      obtain ⟨_, hbound, _, -, key, hkey, _, hverify, _, hepoch, htag⟩ := hcurrent
      obtain ⟨d, hd, hgen, rfl, hactive⟩ := activeDevice_ok hkey
      rw [nonceFree, Check.failIf_ok] at hnonce
      refine .inr ⟨hvalid, hchain, (bound_ok hbound).2, hepoch, ⟨d, hd, hgen, hverify⟩, hactive, ?_,
        fun owner howner => ?_⟩
      · simpa using htag
      · simpa [howner] using hnonce

/-- A record that has a row is not logged again. -/
theorem Logged.record_again {entry : Option LogEntry} {receipt : Receipt} {L L' : Ledger}
    (h : Logged X .record r entry receipt L L') (hs : Sound X L)
    (hrow : (L.objects.find? (.record, s r "record_id")).isSome) : L' = L := by
  cases h with
  | again _ => rfl
  | fresh hf =>
      obtain ⟨o, ho⟩ := Option.isSome_iff_exists.mp hrow
      have hok := hs.object_of_find? ho
      have hkey : o.key = (.record, s r "record_id") := Table.key_of_find? ho
      obtain ⟨hkind, hid⟩ := Prod.mk.inj hkey
      have hreceipt := hok.placed (hok.record hkind)
      rw [hkind, hid, show L.receipts.find? (.record, s r "record_id") = none from
        hf.receipted.free] at hreceipt
      cases hreceipt

/-- An object that is logged anew is at the next position. -/
theorem Logged.entry {kind : Kind} {entry : Option LogEntry} {receipt : Receipt} {L L' : Ledger}
    (h : Logged X kind r entry receipt L L') : L' = L ∨ ∃ e, e.kind = kind ∧ e.object = r ∧
      L'.log.find? (L.chain.logId, L.chain.headSeq + 1) = some ⟨L.chain.logId, L.chain.headSeq + 1,
        some e, (L.chain.extended X e).headHash⟩ := by
  cases h with
  | again _ => exact .inl rfl
  | @fresh e _ _ _ _ hf => exact .inr ⟨e, hf.entryKind, hf.entryObject, by rw [hf.log, if_pos rfl]⟩

theorem upload_record {route : Route} (h : route.isUpload = true) (he : route ≠ .envelopesPost)
    (hr : route ≠ .repair) (hp : route ≠ .partsPost) : route = .recordsPost := by
  cases route <;> simp_all [Route.isUpload]

end Records

section Runs

variable (X : Crypto) (cfg : RelayConfig)

/-- A record that the relay did not hold before a step is uploaded by it. -/
theorem step_uploads (es : List Event) (ev : Event) (id : String) (r : Json)
    (hdel : (storeAfter X cfg (es ++ [ev]) id).deletion = none)
    (hbefore : ¬(storeAfter X cfg es id).Has .record r)
    (hafter : (storeAfter X cfg (es ++ [ev]) id).Has .record r) : Uploads X cfg id es ev r := by
  have hnext : storeAfter X cfg (es ++ [ev]) id = ((World.after X cfg es).step X ev).store id := by
    rw [storeAfter, World.after, run_snoc]
    rfl
  have hlive := (store_earlier X cfg es [ev] id hdel).1
  rw [hnext] at hafter
  obtain hold | ⟨call, index, mid, b, hup, hb⟩ :=
    (step_txn X (World.after X cfg es) ev id).payload rfl hafter
  · exact absurd hold hbefore
  · have hbatched := uploading_batched (after_bounded X cfg es) hup.event
    obtain ⟨c, hc⟩ := Option.isSome_iff_exists.mp hup.stored
    have hcell : ((World.after X cfg es).store id).cell = ⟨storeAfter X cfg es id, c⟩ := by
      rw [Store.cell, hc, Option.getD_some]
    have hsound : Sound X ((storeAfter X cfg es id).ledger c) :=
      ((store_settled X cfg es id).ledger hlive hc).sound
    have hmid : mid.ledger.Has .record r := by
      rw [← hup.saved.ledger]
      rw [hb] at hafter
      exact hafter
    have hstored : storeAfter X cfg (es ++ [ev]) id = b.store := hnext.trans hb
    have hmoved := hup.moved
    rw [hcell] at hmoved
    cases hmoved with
    | envelope hroute _ _ => exact absurd hroute hup.noEnvelope
    | repair hroute _ _ => exact absurd hroute hup.noRepair
    | part _ _ hm =>
        obtain hold | ⟨m, hm, hbrings⟩ := hm.steps.has hmid
        · exact absurd hold hbefore
        · obtain rfl := List.mem_singleton.mp hm
          cases hbrings
    | record _ _ hpart hwritable hrec hm =>
        have hroute := upload_record hbatched.upload hup.noEnvelope hup.noRepair hpart
        obtain ⟨hdevice, hknown⟩ := record_uploaded (hbatched.posted hroute) hrec
        obtain _ | ⟨hstep, hnil⟩ := hm.steps
        obtain _ | _ := hnil
        cases hstep with
        | log _ hlogged =>
            refine ⟨hbefore, ⟨call, index, hup.event, hup.chain, hroute, hdevice⟩, c, hc,
              hwritable, ?_⟩
            obtain hrow | hok := hknown
            · rw [hlogged.record_again hsound hrow] at hmid
              exact absurd hmid hbefore
            · obtain hsame | ⟨e, hkind, hobject, hlog⟩ := hlogged.entry
              · rw [hsame] at hmid
                exact absurd hmid hbefore
              · refine ⟨hok, e, ?_, hkind, hobject⟩
                rw [hstored, Store.logEntry, show b.store.log = mid.store.log from
                  congrArg Ledger.log hup.saved.ledger]
                exact Option.bind_eq_some_iff.mpr ⟨_, hlog, rfl⟩

end Runs

/-- Every record that is held was uploaded in an earlier state of the run by its
author, an active device of the chain's generation, under its epoch; and in no
state up to that one was the author barred. -/
theorem records_legitimate (X : Crypto) (cfg : RelayConfig) (es : List Event) (id : String)
    (r : Json) (hdel : (storeAfter X cfg es id).deletion = none)
    (hr : (storeAfter X cfg es id).Has .record r) :
    ∃ es₁ ev es₂, es = es₁ ++ ev :: es₂ ∧ Uploads X cfg id es₁ ev r ∧
      ∀ front rest, es₁ = front ++ rest → ¬(storeAfter X cfg front id).Bars (s r "device_id") := by
  have hstart : ¬((World.initial cfg).store id).Has .record r := by
    rintro (⟨_, _, h, -⟩ | ⟨_, _, _, h, -⟩) <;> cases h
  obtain ⟨es₁, ev, es₂, rfl, hnot, hturn⟩ :=
    run_turns (P := fun w : World => (w.store id).Has .record r) hstart hr
  have hsplit : es₁ ++ ev :: es₂ = es₁ ++ [ev] ++ es₂ := by simp
  rw [hsplit] at hdel
  have hlive := (store_earlier X cfg (es₁ ++ [ev]) es₂ id hdel).1
  have hafter : (storeAfter X cfg (es₁ ++ [ev]) id).Has .record r := by
    rw [storeAfter, World.after, run_snoc]
    exact hturn
  have hup := step_uploads X cfg es₁ ev id r hlive hnot hafter
  refine ⟨es₁, ev, es₂, rfl, hup, fun front rest hsplit hbars => ?_⟩
  obtain ⟨c, hc, -, hok, -⟩ := hup.checked
  obtain ⟨d, hd, hgen, -⟩ := hok.author
  have hdel₁ := (store_earlier X cfg es₁ [ev] id hlive).1
  subst hsplit
  exact (bars_later X cfg front rest id hdel₁ hbars).excludes hc hd hgen hok.active (by simp)

namespace Sample

/-- The first device uploads a record. -/
def recordRun : List Event := genesisRun ++ upload 1 2 2 recordsRequest

theorem recordRun_facts :
    ((storeAfter crypto cfg recordRun chainId).deletion.isNone &&
      decide ((storeAfter crypto cfg recordRun chainId).object .record (uid 80) =
        some (syncRecord 80 0 0 5))) = true := by
  decide +kernel

end Sample

/-- The record was uploaded before, by the first device. -/
theorem records_legitimate_uploaded : ∃ es₁ ev es₂, Sample.recordRun = es₁ ++ ev :: es₂ ∧
    Uploads Sample.crypto Sample.cfg Sample.chainId es₁ ev (Sample.syncRecord 80 0 0 5) := by
  have hfacts := Sample.recordRun_facts
  simp only [Bool.and_eq_true, Option.isNone_iff_eq_none, decide_eq_true_eq] at hfacts
  obtain ⟨es₁, ev, es₂, hes, hup, -⟩ := records_legitimate Sample.crypto Sample.cfg Sample.recordRun
    Sample.chainId (Sample.syncRecord 80 0 0 5) hfacts.1 (.of_object hfacts.2)
  exact ⟨es₁, ev, es₂, hes, hup⟩

end PallaSync
