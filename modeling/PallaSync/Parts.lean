import PallaSync.Roster

/-!
# Snapshot parts

A snapshot part that is served was signed by a device the relay holds, of the
part's own generation. What the admin stages for the generation to come is
stored unverified: it stays hidden until a re-seed begins that generation, and
the re-seed verifies the parts its own compaction lists, and no others.
-/

namespace PallaSync

open Atomic Machine

/-- A stored device, of the part's device identifier and generation, verifies
its signature. -/
def Store.Signed (X : Crypto) (st : Store) (v : Json) : Prop :=
  ∃ d, st.object .device (s v "device_id") = some d ∧ s d "device_id" = s v "device_id" ∧
    n d "generation" = n v "generation" ∧ verify X v (s d "device_public_key") .syncRecord = .ok ()

/-- The part `x` is signed by a stored device, or the re-seed `v` lists it in
its compaction, or brings the device that signed it. -/
def Store.Attested (X : Crypto) (st : Store) (v x : Json) : Prop :=
  st.Signed X x ∨
  (∃ p ∈ a (v.get "compaction") "snapshot_parts", s p "record_id" = s x "record_id") ∨
  ∃ d ∈ a v "device_records", s d "device_id" = s x "device_id" ∧
    verify X x (s d "device_public_key") .syncRecord = .ok ()

/-- A re-seed attests every part that is stored for the generation it begins. -/
def AttestsParts (X : Crypto) (id : String) (w : World) (ev : Event) : Prop :=
  ∀ call c imported, w.acting ev = some call → call.chain = id → call.route = .reseed →
    (w.store id).chain = some c →
    reseedCheck (w.relay X) (w.store id) c call.value = .ok imported →
    ∀ pid x, (w.store id).object .snapshotPart pid = some x →
      n x "generation" = c.generation + 1 → (w.store id).Attested X call.value x

/-- Every stored part is signed or of the generation to come. -/
def Store.Vouched (X : Crypto) (st : Store) : Prop :=
  st.deletion = none → ∀ c, st.chain = some c → ∀ pid x,
    st.object .snapshotPart pid = some x → st.Signed X x ∨ n x "generation" = c.generation + 1

section Signatures

variable {X : Crypto} {st st' : Store} {c c' : Chain} {v x : Json} {key id : String}

theorem Store.Signed.mono (h : st.Signed X x) (hg : Grows (st.ledger c) (st'.ledger c')) :
    st'.Signed X x := by
  obtain ⟨d, hd, hid, hgen, hv⟩ := h
  obtain ⟨o, ho, hb⟩ := object_eq_some.mp hd
  obtain ⟨o', ho', hb'⟩ := hg.body (by simp [Kind.removable]) ho hb
  exact ⟨d, object_eq_some.mpr ⟨o', ho', hb'⟩, hid, hgen, hv⟩

/-- The device that is stored under an identifier has it. -/
theorem Sound.device_id {d : Json} (hs : Sound X (st.ledger c))
    (hd : st.object .device id = some d) : s d "device_id" = id := by
  obtain ⟨o, ho, hb⟩ := object_eq_some.mp hd
  obtain ⟨d', hb', hid⟩ := hs.device_body ho
  obtain rfl := Option.some.inj (hb.symm.trans hb')
  exact hid

theorem Sound.signed {d : Json} (hs : Sound X (st.ledger c))
    (hd : st.object .device (s x "device_id") = some d) (hg : n d "generation" = n x "generation")
    (hv : verify X x (s d "device_public_key") .syncRecord = .ok ()) : st.Signed X x :=
  ⟨d, hd, hs.device_id hd, hg, hv⟩

/-- The key of an active device is that of its record, of the current
generation. -/
theorem activeDevice_ok (h : activeDevice st c id = .ok key) :
    ∃ d, st.object .device id = some d ∧ n d "generation" = c.generation ∧
      s d "device_public_key" = key ∧ st.status id = some .active := by
  simp only [activeDevice, Check.bind_ok, Check.require_ok, Check.failIf_ok, Check.pure_ok,
    bne_eq_false_iff_eq] at h
  obtain ⟨d, hd, _, hg, status, hstatus, _, rfl, hkey⟩ := h
  exact ⟨d, hd, hg, hkey.symm, hstatus⟩

theorem currentRecord_signed {auth : Auth} (hs : Sound X (st.ledger c))
    (h : currentRecord X st c x auth = .ok ()) : st.Signed X x := by
  simp only [currentRecord, Check.bind_ok, Check.failIf_ok] at h
  obtain ⟨_, hbound, _, -, key, hkey, _, hv, -⟩ := h
  obtain ⟨d, hd, hg, rfl, -⟩ := activeDevice_ok hkey
  exact hs.signed hd (hg.trans (bound_ok hbound).2.symm) hv

theorem historicalPart_signed (hs : Sound X (st.ledger c)) (h : historicalPart X st x = .ok ()) :
    st.Signed X x := by
  simp only [historicalPart, Check.bind_ok, Check.require_ok, Check.failIf_ok,
    Bool.or_eq_false_iff, bne_eq_false_iff_eq] at h
  obtain ⟨p, -, e, -, d, hd, _, ⟨hg, -⟩, _, hv, -⟩ := h
  exact hs.signed hd hg hv

/-- A part that is accepted is stored already, or of the generation to come,
or signed. -/
theorem partRecord_ok {auth : Auth} {staged duplicate : Bool} (hs : Sound X (st.ledger c))
    (h : record X st c x auth true staged = .ok duplicate) :
    (st.objectDigest .snapshotPart (s x "record_id")).isSome ∨
      n x "generation" = c.generation + 1 ∨ st.Signed X x := by
  simp only [record, if_true, Check.bind_ok] at h
  obtain ⟨_, -, _, -, _, -, h⟩ := h
  cases hdigest : st.objectDigest .snapshotPart (s x "record_id") with
  | some digest => exact .inl rfl
  | none =>
      rw [hdigest] at h
      dsimp only at h
      rcases Check.ite_ok.mp h with ⟨hgen, -⟩ | ⟨-, h⟩
      · simp only [Bool.and_eq_true, beq_iff_eq] at hgen
        exact .inr (.inl hgen.2)
      · rcases Check.ite_ok.mp h with ⟨-, h⟩ | ⟨-, h⟩
        · obtain ⟨_, hpart, -⟩ := Check.bind_ok.mp h
          exact .inr (.inr (historicalPart_signed hs hpart))
        · obtain ⟨_, hcurrent, -⟩ := Check.bind_ok.mp h
          exact .inr (.inr (currentRecord_signed hs hcurrent))

/-- A part a compaction lists was signed by a device of the request, or by an
active one. -/
theorem compactionPart_signed {staged : List Json} {p : Json} (hs : Sound X (st.ledger c))
    (h : compactionPart X st c staged p = .ok ()) :
    ∃ x, st.object .snapshotPart (s p "record_id") = some x ∧
      ((∃ d ∈ staged, s d "device_id" = s x "device_id" ∧
          verify X x (s d "device_public_key") .syncRecord = .ok ()) ∨ st.Signed X x) := by
  simp only [compactionPart, Check.bind_ok, Check.require_ok, Check.failIf_ok,
    Bool.or_eq_false_iff, bne_eq_false_iff_eq] at h
  obtain ⟨x, hx, _, ⟨⟨-, hgen⟩, -⟩, key, hkey, _, hv, -⟩ := h
  refine ⟨x, hx, ?_⟩
  unfold authorKey at hkey
  split at hkey
  · rename_i d hd
    obtain rfl := Except.ok.inj hkey
    refine .inl ⟨d, List.mem_of_find?_eq_some hd, ?_, hv⟩
    simpa using List.find?_some hd
  · obtain ⟨d, hd, hg, rfl, -⟩ := activeDevice_ok hkey
    exact .inr (hs.signed hd (hg.trans hgen.symm) hv)

/-- A part has a row under its identifier, and no log entry. -/
theorem Sound.part_row (hs : Sound X (st.ledger c)) (h : st.Has .snapshotPart x) :
    st.object .snapshotPart (s x "record_id") = some x := by
  obtain ⟨id, o, ho, hbody⟩ | ⟨⟨l, i⟩, row, e, hrow, he, hkind, hobj⟩ := h
  · have hkey : o.key = (.snapshotPart, id) := Table.key_of_find? ho
    obtain ⟨hk, hid⟩ := Prod.mk.inj hkey
    obtain ⟨-, hobjid⟩ := (hs.object_of_find? ho).body x hbody
    rw [hk, hid] at hobjid
    subst hobjid
    exact object_eq_some.mpr ⟨o, ho, hbody⟩
  · have hrow : (st.ledger c).log.find? (l, i) = some row := hrow
    obtain ⟨rr, hrr, hl, hi⟩ := hs.logged l i row hrow
    have hok := hs.receipts rr hrr
    obtain ⟨row', hrow', -, hentry, -⟩ := (hok.position i hi).row
    rw [hl, hrow] at hrow'
    obtain rfl := Option.some.inj hrow'
    have hnone := hok.part.mpr ((hentry e he).kind.symm.trans hkind)
    rw [hi] at hnone
    cases hnone

end Signatures

/-! ## Steps -/

section Steps

variable {X : Crypto} {cfg : RelayConfig} {w : World} {id : String} {ev : Event} {x : Json}

/-- What a re-seed attests is signed once it has committed. -/
theorem Reseeded.signed {R : Relay} {v : Json} {imported : Import} {c : Chain} {a mid b : Cell}
    {pid : String} (h : Reseeded R v imported c a mid b) (hs : Sound R.crypto a.ledger)
    (hx : a.store.object .snapshotPart pid = some x)
    (hgen : n x "generation" = a.chain.generation + 1)
    (hatt : a.store.Attested R.crypto v x) : b.store.Signed R.crypto x := by
  have hfree := h.fresh hs
  have hok := reseedCheck_ok h.checked
  obtain ⟨notice, hc⟩ := h.chain
  have hs₀ : Sound R.crypto (a.store.ledger c) := by
    rw [hc]
    exact hs.reincarnate hok.chainId hfree
  have hgenc : c.generation = a.chain.generation + 1 := by
    rw [hc]
    exact hok.generation
  obtain ⟨M₀, N, N', entry, r, done, hpar, hcommit, hcheck, hcomp⟩ := h.moves
  obtain ⟨ms, hadopt⟩ := h.adopted.steps
  have hsteps := hadopt.append hpar
  have hdone : Grows (a.store.ledger c) done.ledger := hsteps.grows.trans hcommit.steps.grows
  have hb : Grows done.ledger b.ledger := hcomp.grows
  have brought : ∀ d ∈ PallaSync.a v "device_records", s d "device_id" = s x "device_id" →
      verify R.crypto x (s d "device_public_key") .syncRecord = .ok () →
      b.store.Signed R.crypto x := fun d hd hid hv => by
    obtain ⟨o, ho, hbody⟩ := h.enlists hs₀ hd
    have hdev := stagedDeviceCheck_ok (h.devices d hd)
    refine ⟨d, object_eq_some.mpr ⟨o, hid ▸ ho, hbody⟩, hid, ?_, hv⟩
    rw [hdev.generation, hgenc, hgen]
  rcases hatt with hsigned | ⟨p, hp, hpid⟩ | ⟨d, hd, hid, hv⟩
  · exact hsigned.mono (hdone.trans hb)
  · -- the compaction is checked after the epoch: nothing has taken the part away since
    obtain ⟨o, ho, hbody⟩ := object_eq_some.mp hx
    obtain ⟨-, hobjid⟩ := (hs.object_of_find? ho).body x hbody
    obtain ⟨hkind, hoid⟩ := Prod.mk.inj (Table.key_of_find? ho : o.key = (Kind.snapshotPart, pid))
    rw [hkind, hoid] at hobjid
    obtain ⟨o', ho', hbody'⟩ := hdone.body (by simp [Kind.removable]) ho hbody
    simp only [reseedCompactionCheck, Check.bind_ok] at hcheck
    obtain ⟨_, -, hcompact⟩ := hcheck
    have hsdone : Sound R.crypto done.ledger := (hs₀.steps hsteps).steps hcommit.steps
    obtain ⟨x', hx', hauthor⟩ := compactionPart_signed hsdone ((compaction_ok hcompact).parts p hp)
    have hsame : done.store.object .snapshotPart (s p "record_id") = some x := by
      rw [hpid, show s x "record_id" = pid from hobjid]
      exact object_eq_some.mpr ⟨o', ho', hbody'⟩
    obtain rfl := Option.some.inj (hsame.symm.trans hx')
    obtain ⟨d, hd, hid, hv⟩ | hsigned := hauthor
    · exact brought d hd hid hv
    · exact hsigned.mono hb
  · exact brought d hd hid hv

/-- A stored part stays signed, and is signed when its generation begins. -/
theorem Acted.vouched {cause : Option Call} {st' : Store} {c c' : Chain} {pid : String}
    (h : Acted (w.relay X) id cause (w.store id) st')
    (hcause : ∀ call, cause = some call → w.acting ev = some call ∧ call.chain = id)
    (hs : Sound X ((w.store id).ledger c)) (hC : AttestsParts X id w ev)
    (hc : (w.store id).chain = some c) (hc' : st'.chain = some c')
    (hx : (w.store id).object .snapshotPart pid = some x)
    (hold : (w.store id).Signed X x ∨ n x "generation" = c.generation + 1) :
    st'.Signed X x ∨ n x "generation" = c'.generation + 1 := by
  cases h with
  | absent hnone _ _ | begun hnone _ _ _ _ _ _ | staged hnone _ _ _ _ _ _ _ =>
      rw [hnone] at hc
      cases hc
  | acted hsome hact hsome' hledger =>
      rename_i c₁ b
      obtain rfl := Option.some.inj (hc.symm.trans hsome)
      obtain rfl := Option.some.inj (hc'.symm.trans hsome')
      obtain ⟨ms, hsteps, -⟩ := (hact.passage hs).steps
      have hg : Grows ((w.store id).ledger c) (st'.ledger b.chain) := hledger ▸ hsteps.grows
      obtain hsigned | hgen := hold
      · exact .inl (hsigned.mono hg)
      · have same : b.chain.parameters = c.parameters →
            n x "generation" = b.chain.generation + 1 := fun hp => by
          rw [hgen, Chain.generation, Chain.generation, hp]
        obtain ⟨-, hp⟩ | ⟨call, -, -, hrot⟩ | ⟨call, hcall, hroute, imported, c₀, mid, hre⟩ :=
          hact.terms
        · exact .inr (same hp)
        · exact .inr (same hrot.parameters)
        · have hatt := hC call c imported (hcause call hcall).1 (hcause call hcall).2 hroute hsome
            hre.checked pid x hx hgen
          have hsigned := hre.signed hs hx hgen hatt
          have hgrows : Grows (b.store.ledger b.chain) (st'.ledger b.chain) := by
            rw [hledger]
            exact .refl _
          exact .inl (hsigned.mono hgrows)

/-- An uploaded part is signed, or of the generation to come. -/
theorem Uploading.vouched {call : Call} {index : Nat} {mid b : Cell} {c : Chain}
    (h : Uploading X w id ev call index x mid b) (hs : Sound X ((w.store id).ledger c))
    (hc : (w.store id).chain = some c) (hx : mid.ledger.Has .snapshotPart x) :
    (w.store id).Has .snapshotPart x ∨ (w.store id).Signed X x ∨
      n x "generation" = c.generation + 1 := by
  have hmoved := h.moved
  rw [Store.cell_of hc] at hmoved
  cases hmoved with
  | envelope hroute => exact absurd hroute h.noEnvelope
  | repair hroute => exact absurd hroute h.noRepair
  | part _ hrec hm =>
      obtain hstored | hgen | hsigned := partRecord_ok hs hrec
      · obtain _ | ⟨hstep, hnil⟩ := hm.steps
        obtain _ | _ := hnil
        have hsame := hstep.part_again (objectDigest_isSome ▸ hstored)
        rw [hsame] at hx
        exact .inl hx
      · exact .inr (.inr hgen)
      · exact .inr (.inl hsigned)
  | record _ _ _ _ _ hm =>
      obtain hold | ⟨m, hmem, hb⟩ := hm.steps.has hx
      · exact .inl hold
      · obtain rfl := List.mem_singleton.mp hmem
        cases hb

theorem step_vouched (hw : w.Bounded cfg) (hs : (w.store id).Holds (Settled X id))
    (hC : AttestsParts X id w ev) (h : (w.store id).Vouched X) :
    ((w.step X ev).store id).Vouched X := by
  intro hdel' c' hc' pid x hx
  obtain ⟨hdel, hstep⟩ := step_acted X hw ev id hdel'
  have kept : (w.store id).Has .snapshotPart x → ((w.step X ev).store id).Signed X x ∨
      n x "generation" = c'.generation + 1 := fun hold => by
    cases hc : (w.store id).chain with
    | none => exact absurd hold (hs.bare hdel hc).not_has
    | some c =>
        have hsound : Sound X ((w.store id).ledger c) := (hs.ledger hdel hc).sound
        have hobj := hsound.part_row hold
        have hvouched := h hdel c hc _ _ hobj
        obtain he | ⟨cause, hacted, hcause⟩ := hstep
        · rw [he] at hc' ⊢
          obtain rfl := Option.some.inj (hc.symm.trans hc')
          exact hvouched
        · exact hacted.vouched hcause hsound hC hc hc' hobj hvouched
  obtain hold | ⟨call, index, mid, b, hup, hst⟩ := (step_txn X w ev id).payload rfl (.of_object hx)
  · exact kept hold
  · obtain ⟨c, hc⟩ := Option.isSome_iff_exists.mp hup.stored
    have hsound : Sound X ((w.store id).ledger c) := (hs.ledger hdel hc).sound
    have hmid : mid.ledger.Has .snapshotPart x := by
      rw [← hup.saved.ledger]
      rw [hst] at hx
      exact Store.Has.of_object hx
    obtain hold | hnew := hup.vouched hsound hc hmid
    · exact kept hold
    · have hord := hup.moved.ordinary
      rw [Store.cell_of hc, ← hup.saved.ledger] at hord
      rw [hst, hup.saved.stored] at hc'
      obtain rfl := Option.some.inj hc'
      refine hnew.imp (fun hsigned => ?_) fun hgen => ?_
      · rw [hst]
        exact hsigned.mono hord.grows
      · have hparams : b.chain.parameters = c.parameters := hord.sameTerms.parameters
        rw [hgen, Chain.generation, Chain.generation, hparams]

end Steps

/-! ## What is served -/

section Served

variable {X : Crypto} {R : Relay} {st : Store} {c : Chain} {line x : Json}

/-- If the line is one of a snapshot part, it shows a stored part whose
generation the chain has reached. -/
def PartLine (st : Store) (c : Chain) (line : Json) : Prop :=
  s line "kind" = "snapshot_part" → ∃ pid,
    st.object .snapshotPart pid = some (line.get "record") ∧
    n (line.get "record") "generation" ≤ c.generation

theorem PartLine.of_kind (h : s line "kind" ≠ "snapshot_part") : PartLine st c line :=
  fun hk => absurd hk h

theorem labelled_kind {kind member : String} {v : Json} (hm : "kind" ≠ member) :
    s (labelled kind member v) "kind" = kind := by
  simp [s, Json.get, labelled, Json.lookup_setMember, hm, Json.asStr]

theorem labelled_set_kind {kind member key : String} {v y : Json} (hm : "kind" ≠ member)
    (hk : "kind" ≠ key) : s ((labelled kind member v).set key y) "kind" = kind := by
  rw [s, labelled, Json.get_set, if_neg hk]
  exact labelled_kind hm

theorem boundedRows_mem {α : Type} {size : α → Nat} {bytes : Nat} {first : Bool}
    {rows rows' : List α} (h : boundedRows size bytes first rows = .ok rows') :
    ∀ r ∈ rows', r ∈ rows := by
  induction rows generalizing bytes first rows' with
  | nil =>
      obtain rfl := Except.ok.inj h
      simp
  | cons r rs ih =>
      unfold boundedRows at h
      split at h
      · split at h
        · cases h
        · obtain rfl := Except.ok.inj h
          simp
      · cases hrest : boundedRows size (bytes + size r) false rs with
        | error e =>
            rw [hrest] at h
            cases h
        | ok rest =>
            rw [hrest] at h
            obtain rfl := Except.ok.inj h
            exact List.forall_mem_cons.mpr ⟨List.mem_cons_self,
              fun y hy => List.mem_cons_of_mem _ (ih hrest y hy)⟩

/-- Every line of a keyed listing is that of one of the rows. -/
theorem keyedLines_mem {ρ : Type} {limit : Nat} {after : String} {key : ρ → String}
    {size : ρ → Nat} {line : ρ → Json} {rows : List ρ} {items : List (String × Json)}
    (h : keyedLines limit after key size line rows = .ok items) :
    ∀ y ∈ items, ∃ r ∈ rows, y.2 = line r := by
  simp only [keyedLines, Check.bind_ok, Check.pure_ok] at h
  obtain ⟨fitting, hfit, rfl⟩ := h
  intro y hy
  obtain ⟨r, hr, rfl⟩ := List.mem_map.mp hy
  have hmem := List.mem_of_mem_take (boundedRows_mem hfit r hr)
  exact ⟨r, (List.mem_filter.mp ((List.perm_insertionSort _ _).subset hmem)).1, rfl⟩

theorem numberedLines_mem {ρ : Type} {limit after : Nat} {key : ρ → Nat} {size : ρ → Nat}
    {line : ρ → Json} {rows : List ρ} {items : List (String × Json)}
    (h : numberedLines limit after key size line rows = .ok items) :
    ∀ y ∈ items, ∃ r ∈ rows, y.2 = line r := by
  simp only [numberedLines, Check.bind_ok, Check.pure_ok] at h
  obtain ⟨fitting, hfit, rfl⟩ := h
  intro y hy
  obtain ⟨r, hr, rfl⟩ := List.mem_map.mp hy
  have hmem := List.mem_of_mem_take (boundedRows_mem hfit r hr)
  exact ⟨r, (List.mem_filter.mp ((List.perm_insertionSort _ _).subset hmem)).1, rfl⟩

/-- A part the cut has evidence of is stored, and its generation reached. -/
theorem published_line {r : ObjectRow}
    (h : r ∈ st.objects.select (publishedObject st c .snapshotPart)) :
    PartLine st c (labelled "snapshot_part" "record" (r.body.getD .null)) := by
  obtain ⟨hmem, hpub⟩ := Table.mem_select.mp h
  simp only [publishedObject, Bool.and_eq_true, decide_eq_true_eq] at hpub
  obtain ⟨⟨hkind, hgen⟩, -⟩ := hpub
  obtain ⟨body, hbody, hgen⟩ := (Option.any_eq_true _ _).mp hgen
  obtain ⟨g, hg, hle⟩ := (Option.any_eq_true _ _).mp hgen
  have hrecord : (labelled "snapshot_part" "record" (r.body.getD .null)).get "record" = body := by
    simp [labelled, Json.get, Json.lookup_setMember, hbody]
  have hfind : st.objects.find? (.snapshotPart, r.objectId) = some r :=
    hkind ▸ Table.find?_of_mem hmem
  intro _
  rw [hrecord]
  refine ⟨r.objectId, object_eq_some.mpr ⟨r, hfind, hbody⟩, ?_⟩
  rw [n, hg]
  exact of_decide_eq_true hle

/-- Only the group of the snapshot parts has lines of that kind. -/
theorem group_lines {p : Page} {phase : Nat} {rows : List (String × Json)}
    (h : group X st p phase = .ok rows) : ∀ y ∈ rows, PartLine st p.cut y.2 := by
  intro y hy
  have other : ∀ {kind member : String} {v : Json}, "kind" ≠ member → kind ≠ "snapshot_part" →
      PartLine st p.cut (labelled kind member v) := fun hm hk =>
    .of_kind (by rw [labelled_kind hm]; exact hk)
  have other' : ∀ {kind member key : String} {v z : Json}, "kind" ≠ member → "kind" ≠ key →
      kind ≠ "snapshot_part" → PartLine st p.cut ((labelled kind member v).set key z) :=
    fun hm hm' hk => .of_kind (by rw [labelled_set_kind hm hm']; exact hk)
  unfold group at h
  dsimp only at h
  split at h
  · obtain ⟨r, -, hline⟩ := numberedLines_mem h y hy
    exact hline ▸ other (by decide) (by decide)
  · obtain ⟨r, -, hline⟩ := keyedLines_mem h y hy
    exact hline ▸ other (by decide) (by decide)
  · obtain ⟨r, -, hline⟩ := keyedLines_mem h y hy
    exact hline ▸ other (by decide) (by decide)
  · obtain ⟨r, -, hline⟩ := keyedLines_mem h y hy
    exact hline ▸ other' (by decide) (by decide) (by decide)
  · obtain ⟨r, -, hline⟩ := keyedLines_mem h y hy
    exact hline ▸ other' (by decide) (by decide) (by decide)
  · obtain ⟨r, hr, hline⟩ := keyedLines_mem h y hy
    exact hline ▸ published_line hr
  · obtain ⟨r, -, hline⟩ := keyedLines_mem h y hy
    exact hline ▸ other (by decide) (by decide)
  · obtain ⟨r, -, hline⟩ := keyedLines_mem h y hy
    exact hline ▸ other (by decide) (by decide)
  · obtain ⟨r, -, hline⟩ := numberedLines_mem h y hy
    exact hline ▸ other (by decide) (by decide)
  · obtain rfl := Except.ok.inj h
    split at hy
    · obtain rfl := List.mem_singleton.mp hy
      exact other (by decide) (by decide)
    · cases hy

theorem protect_line {item : Json} {include? : Bool} (h : protect X item include? = some line)
    (hitem : PartLine st c item) : PartLine st c line := by
  unfold protect at h
  split at h
  · split at h
    · obtain rfl := Option.some.inj h
      exact .of_kind (by simp [s, Json.get, Json.asStr])
    · cases h
  · exact Option.some.inj h ▸ hitem

/-- The lines of a chunk under way are served rightly, of the cut `cut`. -/
structure Chunk.Serves (st : Store) (cut : Chain) (k : Chunk) : Prop where
  lines : ∀ line ∈ k.lines, PartLine st cut line
  cut : k.page.cut = cut

theorem writeLines_serves {include? : Bool} {cut : Chain} {rows : List (String × Json)} {k : Chunk}
    (hrows : ∀ y ∈ rows, PartLine st cut y.2) (hk : k.Serves st cut) :
    (writeLines X include? rows k).1.Serves st cut := by
  induction rows generalizing k with
  | nil => exact hk
  | cons row rest ih =>
      obtain ⟨key, item⟩ := row
      obtain ⟨hitem, hrest⟩ := List.forall_mem_cons.mp hrows
      unfold writeLines
      split
      · rename_i line hline
        split
        · exact hk
        · refine ih hrest ⟨?_, hk.cut⟩
          exact List.forall_mem_cons.mpr ⟨protect_line hline hitem, hk.lines⟩
      · exact ih hrest ⟨hk.lines, hk.cut⟩

theorem exportGroups_serves {include? : Bool} {cut : Chain} {fuel : Nat} {k k' : Chunk}
    (h : exportGroups X st include? fuel k = .ok k') (hk : k.Serves st cut) :
    k'.Serves st cut := by
  induction fuel generalizing k with
  | zero => exact Except.ok.inj h ▸ hk
  | succ fuel ih =>
      unfold exportGroups at h
      dsimp only at h
      rcases Check.ite_ok.mp h with ⟨-, h⟩ | ⟨-, h⟩
      · exact Check.pure_ok.mp h ▸ hk
      · obtain ⟨rows, hrows, h⟩ := Check.bind_ok.mp h
        have hwritten : (writeLines X include? rows k).1.Serves st cut :=
          writeLines_serves (hk.cut ▸ group_lines hrows) hk
        rcases Check.ite_ok.mp h with ⟨-, h⟩ | ⟨-, h⟩
        · exact Check.pure_ok.mp h ▸ hwritten
        · obtain ⟨more, -, h⟩ := Check.bind_ok.mp h
          rcases Check.ite_ok.mp h with ⟨-, h⟩ | ⟨-, h⟩
          · rcases Check.ite_ok.mp h with ⟨-, h⟩ | ⟨-, h⟩
            · exact Check.pure_ok.mp h ▸ hwritten
            · exact ih h hwritten
          · -- the next group: the chunk goes on from another position of the same cut
            have hnext : ∀ key extra, ({ (writeLines X include? rows k).1 with
                page := { (writeLines X include? rows k).1.page with key, extra } } : Chunk).Serves
                  st cut := fun _ _ => ⟨hwritten.lines, hwritten.cut⟩
            rcases Check.ite_ok.mp h with ⟨-, h⟩ | ⟨-, h⟩
            · exact Check.pure_ok.mp h ▸ hnext _ _
            · exact ih h (hnext _ _)

/-- A page stands on the current generation, and takes nothing. -/
theorem page_ok {route : Route} {q : Query} {filters : Json} {w w' : Work} {p : Page}
    (h : page R route q filters w = .ok (p, w')) :
    p.cut.generation = w.cell.chain.generation ∧ w'.cell = w.cell := by
  simp only [page, bind_ok, lift_ok, failIf_ok, now_ok] at h
  obtain ⟨limit, _, ⟨-, rfl⟩, _, _, ⟨-, rfl⟩, t, _, ⟨-, rfl⟩, h⟩ := h
  cases hcursor : query q "cursor" with
  | some token =>
      simp only [hcursor, check_ok, resumePage, Check.bind_ok, Check.failIf_ok, Check.require_ok,
        Check.pure_ok, Bool.or_eq_false_iff, bne_eq_false_iff_eq] at h
      obtain ⟨⟨_, -, row, -, _, -, _, -, _, ⟨-, hgen⟩, _, -, rfl⟩, rfl⟩ := h
      exact ⟨hgen, rfl⟩
  | none =>
      simp only [hcursor, bind_ok, lift_ok, chain_ok, look_ok, pure_ok] at h
      obtain ⟨_, _, ⟨-, rfl⟩, _, _, ⟨rfl, rfl⟩, _, _, ⟨-, rfl⟩, rfl, rfl⟩ := h
      exact ⟨rfl, rfl⟩

/-- The lines of one chunk, from its header to its continuation. -/
theorem chunk_lines {include? : Bool} {id : String} {fuel : Nat} {p : Page} {k : Chunk}
    {bytes : Nat}
    {more next : Json} (h : exportGroups X st include? fuel
      ⟨[exportHeader X p.cut id include?], 0, bytes, p⟩ = .ok k) :
    ∀ line ∈ k.lines.reverse ++ [.obj [("has_more", more), ("kind", .str "continuation"),
      ("next_cursor", next)]], PartLine st p.cut line := by
  have hserves := exportGroups_serves h 
    ⟨List.forall_mem_singleton.mpr (.of_kind (by
      simp [exportHeader, s, Json.get, List.lookup_cons, Json.asStr])), rfl⟩
  intro line hline
  obtain hline | hline := List.mem_append.mp hline
  · exact hserves.lines line (List.mem_reverse.mp hline)
  · obtain rfl := List.mem_singleton.mp hline
    exact .of_kind (by simp [s, Json.get, List.lookup_cons, Json.asStr])

/-- Every line of an export is served rightly. -/
theorem exportChain_lines {auth : Auth} {q : Query} {w w' : Work} {lines : List Json}
    (h : exportChain R auth q w = .ok (lines, w')) :
    ∀ line ∈ lines, PartLine w.cell.store w.cell.chain line := by
  simp only [exportChain, bind_ok, lift_ok, failIf_ok, chain_ok, look_ok] at h
  obtain ⟨_, _, ⟨-, rfl⟩, include?, _, ⟨-, rfl⟩, _, _, ⟨-, rfl⟩, p, w₁, hpage, c, _, ⟨rfl, rfl⟩, _,
    _, ⟨-, rfl⟩, head, _, ⟨-, rfl⟩, h⟩ := h
  obtain ⟨hgen, hcell⟩ := page_ok hpage
  have served : ∀ {cut : Chain}, cut = p.cut → ∀ line, PartLine w₁.cell.store cut line →
      PartLine w.cell.store w.cell.chain line := fun hcut line hline hkind => by
    obtain ⟨pid, hpid, hle⟩ := hline hkind
    exact ⟨pid, hcell ▸ hpid, hgen ▸ hcut ▸ hle⟩
  rcases ite_ok.mp h with ⟨-, h⟩ | ⟨-, h⟩
  · simp only [bind_ok, check_ok, pure_ok, failIf_ok] at h
    obtain ⟨_, _, ⟨rfl, rfl⟩, k, _, ⟨hk, rfl⟩, next, w₃, -, _, _, ⟨-, rfl⟩, rfl, rfl⟩ := h
    exact fun line hline => served rfl line (chunk_lines hk line hline)
  · simp only [bind_ok, require_ok, check_ok, pure_ok, failIf_ok] at h
    obtain ⟨head, _, ⟨-, rfl⟩, _, _, ⟨rfl, rfl⟩, k, _, ⟨hk, rfl⟩, next, w₃, -, _, _, ⟨-, rfl⟩, rfl,
      rfl⟩ := h
    exact fun line hline => served rfl line (chunk_lines hk line hline)

/-- The answer shows the record of a snapshot part: alone, or in a line of an
export. -/
inductive Reply.Shows (call : Call) (x : Json) : Reply → Prop where
  | part {status v} : call.route = .partGet → v.get "record" = x → Shows call x (.json status v)
  | line {lines line} : line ∈ lines → s line "kind" = "snapshot_part" → line.get "record" = x →
      Shows call x (.lines lines)

theorem partAt_ok {param : String} {v : Json} (h : partAt st c param = .ok v) :
    st.object .snapshotPart param = some (v.get "record") ∧
      n (v.get "record") "generation" ≤ c.generation := by
  simp only [partAt, Check.bind_ok, Check.require_ok, Check.failIf_ok, Check.pure_ok,
    decide_eq_false_iff_not, not_lt] at h
  obtain ⟨record, hrecord, _, hgen, receipt, -, rfl⟩ := h
  exact ⟨hrecord, hgen⟩

/-- What a request on a chain shows is stored, of a generation the chain has
reached. -/
theorem executeTx_shows {call : Call} {w w' : Work} {reply : Reply}
    (h : executeTx R call w = .ok (reply, w')) (hx : reply.Shows call x) :
    w.cell.store.chain.isSome ∧ ∃ pid, w.cell.store.object .snapshotPart pid = some x ∧
      n x "generation" ≤ w.cell.chain.generation := by
  have hon : onChain R call w = .ok (reply, w') := by
    unfold executeTx at h
    generalize hroute : call.route = route at h
    split at h
    · simp only [bind_ok, pure_ok] at h
      obtain ⟨_, _, -, _, _, -, rfl, -⟩ := h
      cases hx with
      | part hpart _ => simp [hroute] at hpart
    · simp only [bind_ok, pure_ok] at h
      obtain ⟨_, _, -, _, _, -, _, _, -, rfl, -⟩ := h
      cases hx with
      | part hpart _ => simp [hroute] at hpart
    · exact h
  simp only [onChain, bind_ok, look_ok, require_ok, failIf_ok, check_ok] at hon
  obtain ⟨_, _, ⟨rfl, rfl⟩, c, _, ⟨hc, rfl⟩, _, _, ⟨-, rfl⟩, _, _, ⟨-, rfl⟩, hon⟩ := hon
  refine ⟨by rw [hc]; rfl, ?_⟩
  simp only [dispatch, bind_ok, lift_ok] at hon
  obtain ⟨_, _, ⟨-, rfl⟩, hon⟩ := hon
  rcases ite_ok.mp hon with ⟨-, hon⟩ | ⟨-, hon⟩
  · obtain ⟨lines, w₁, hexport, hon⟩ := bind_ok.mp hon
    obtain ⟨rfl, -⟩ := pure_ok.mp hon
    cases hx with
    | line hline hkind hrec => exact hrec ▸ exportChain_lines hexport _ hline hkind
  · rcases ite_ok.mp hon with ⟨-, hon⟩ | ⟨hget, hon⟩
    · obtain ⟨v, w₁, hread, hon⟩ := bind_ok.mp hon
      obtain ⟨_, _, -, hon⟩ := bind_ok.mp hon
      obtain ⟨rfl, -⟩ := pure_ok.mp hon
      cases hx with
      | part hpart hrec =>
          simp only [readRoute, hpart, check_ok] at hread
          obtain ⟨hfound, hgen⟩ := partAt_ok hread.1
          exact ⟨_, hrec ▸ hfound, hrec ▸ hgen⟩
    · simp only [bind_ok, pure_ok] at hon
      obtain ⟨_, _, -, _, _, -, _, _, -, _, _, -, rfl, -⟩ := hon
      cases hx with
      | part hpart _ => simp [hpart, Route.isGet] at hget

/-- The transaction that answers with a snapshot part runs on the chain. -/
theorem stepExecute_shows {o : Oracle} {call : Call} {reply : Reply}
    (h : (stepExecute R o call st).2 = .done reply) (hx : reply.Shows call x) :
    st.deletion = none ∧ ∃ c pid, st.chain = some c ∧
      st.object .snapshotPart pid = some x ∧ n x "generation" ≤ c.generation := by
  unfold stepExecute at h
  split at h
  · rename_i d hdel
    cases hdeleted : deletedReply R.crypto d call with
    | error e =>
        rw [hdeleted] at h
        cases h
        cases hx
    | ok r =>
        rw [hdeleted] at h
        cases h
        unfold deletedReply at hdeleted
        rcases Check.ite_ok.mp hdeleted with ⟨hroute, hd⟩ | ⟨-, hd⟩
        · obtain ⟨_, -, hd⟩ := Check.bind_ok.mp hd
          obtain rfl := Check.pure_ok.mp hd
          cases hx with
          | part hpart _ => simp [hroute] at hpart
        · rcases Check.ite_ok.mp hd with ⟨hroute, hd⟩ | ⟨-, hd⟩
          · obtain rfl := Check.pure_ok.mp hd
            cases hx with
            | part hpart _ => simp [hroute.1] at hpart
          · cases hd
  · rename_i hdel
    split at h
    · rename_i r b hrun
      obtain ⟨w, w', hw, hm, -⟩ := run_ok hrun
      dsimp only at h
      split at h
      · cases h
      · cases h
        obtain ⟨hsome, pid, hpid, hgen⟩ := executeTx_shows hm hx
        rw [hw] at hsome hpid hgen
        obtain ⟨c, hc⟩ := Option.isSome_iff_exists.mp hsome
        rw [Store.cell_of hc] at hgen
        exact ⟨hdel, c, pid, hc, hpid, hgen⟩
    · dsimp only at h
      split at h
      · cases h
        cases hx
      · cases h

/-- In every run in which each re-seed attests the parts stored for the
generation it begins, whatever snapshot part the relay shows is signed by a
device it holds. -/
theorem served_parts_signed (X : Crypto) (cfg : RelayConfig) (id : String) (es : List Event)
    (hes : StepsMeet (World.step X) (AttestsParts X id) (World.initial cfg) es)
    {o : Oracle} {call : Call} {reply : Reply} {x : Json}
    (h : (stepExecute ((World.after X cfg es).relay X) o call (storeAfter X cfg es id)).2 =
      .done reply) (hx : reply.Shows call x) : (storeAfter X cfg es id).Signed X x := by
  have hvouched : (storeAfter X cfg es id).Vouched X :=
    store_invariant_of (C := AttestsParts X id) (fun _ _ hc => by cases hc)
      (fun w ev hw hs hC h => step_vouched hw hs hC h) hes
  obtain ⟨hdel, c, pid, hc, hpid, hgen⟩ := stepExecute_shows h hx
  obtain hsigned | hhidden := hvouched hdel c hc pid x hpid
  · exact hsigned
  · omega

end Served

namespace Sample

/-- The admin stages the parts for the generation to come and re-seeds the
chain under it, with a compaction that lists the first. -/
def reseedRun (parts : List Json) : List Event :=
  genesisRun ++ perform 1 1 (importRequest [epoch0]) ++
    upload 2 2 parts.length (partsRequest 4 parts) ++
    perform 3 9 (reseedRequest (uid 30006) (parts.take 1))

/-- A part of the device the re-seed brings, and one of no device at all. -/
def newPart : Json := recordBy 2 80 1 1 5

def strayPart : Json := recordBy 9 81 1 1 6

/-- The relay answers the admin with the stored part `k`. -/
def showsPart (parts : List Json) (k : Nat) (part : Json) : Bool :=
  match (stepExecute ((World.after crypto cfg (reseedRun parts)).relay crypto) (oracle 1500 20)
      (adminCall .partGet (uid k)) (storeAfter crypto cfg (reseedRun parts) chainId)).2 with
  | .done (.json _ v) => decide (v.get "record" = part)
  | _ => false

theorem shows_of_showsPart {parts : List Json} {k : Nat} {part : Json}
    (h : showsPart parts k part = true) : ∃ reply,
      (stepExecute ((World.after crypto cfg (reseedRun parts)).relay crypto) (oracle 1500 20)
        (adminCall .partGet (uid k)) (storeAfter crypto cfg (reseedRun parts) chainId)).2 =
          .done reply ∧ reply.Shows (adminCall .partGet (uid k)) part := by
  unfold showsPart at h
  split at h
  · rename_i status v hdone
    exact ⟨_, hdone, .part rfl (of_decide_eq_true h)⟩
  · cases h

theorem reseedRun_facts :
    (stepsAll (World.step crypto) (fun w ev => (w.acting ev).all fun call =>
        !decide (call.route = .reseed) || (w.store call.chain).objects.rows.all fun o =>
          !decide (o.kind = .snapshotPart) || o.body.all fun x =>
            (a (call.value.get "compaction") "snapshot_parts").any fun p =>
              s p "record_id" == s x "record_id") (.initial cfg) (reseedRun [newPart]) &&
      showsPart [newPart] 80 newPart) = true := by
  decide +kernel

end Sample

/-- The part a re-seed lists is served, signed by the device it brings. -/
theorem served_parts_signed_run :
    (storeAfter Sample.crypto Sample.cfg (Sample.reseedRun [Sample.newPart])
      Sample.chainId).Signed Sample.crypto Sample.newPart := by
  obtain ⟨hlisted, hshows⟩ := Bool.and_eq_true_iff.mp Sample.reseedRun_facts
  obtain ⟨reply, hdone, hreply⟩ := Sample.shows_of_showsPart hshows
  refine served_parts_signed Sample.crypto Sample.cfg Sample.chainId _ ?_ hdone hreply
  refine stepsMeet_of_all (fun w ev hall call c imported hact hid hroute _ _ pid x hx _ => ?_)
    hlisted
  rw [hact, Option.all_some, hroute, hid] at hall
  obtain ⟨o, ho, hbody⟩ := object_eq_some.mp hx
  have hkind : o.kind = .snapshotPart := congrArg Prod.fst (Table.key_of_find? ho : o.key = _)
  simp only [decide_true, Bool.not_true, Bool.false_or] at hall
  have hrow := List.all_eq_true.mp hall o (Table.mem_of_find? ho)
  rw [hkind, hbody] at hrow
  simp only [decide_true, Bool.not_true, Bool.false_or, Option.all_some, List.any_eq_true,
    beq_iff_eq] at hrow
  exact .inr (.inl hrow)

/-- A part that no device signed is served once a re-seed begins its
generation: the admin staged it, and the compaction does not list it. -/
theorem stray_part_served : ∃ es o call reply x,
    (stepExecute ((World.after Sample.crypto Sample.cfg es).relay Sample.crypto) o call
      (storeAfter Sample.crypto Sample.cfg es Sample.chainId)).2 = .done reply ∧
    reply.Shows call x ∧
    ¬(storeAfter Sample.crypto Sample.cfg es Sample.chainId).Signed Sample.crypto x := by
  have hrun : (Sample.showsPart [Sample.newPart, Sample.strayPart] 81 Sample.strayPart &&
      ((storeAfter Sample.crypto Sample.cfg
        (Sample.reseedRun [Sample.newPart, Sample.strayPart]) Sample.chainId).object .device
          (s Sample.strayPart "device_id")).isNone) = true := by
    decide +kernel
  obtain ⟨hshows, hnone⟩ := Bool.and_eq_true_iff.mp hrun
  obtain ⟨reply, hdone, hreply⟩ := Sample.shows_of_showsPart hshows
  refine ⟨_, _, _, reply, _, hdone, hreply, fun ⟨d, hd, _⟩ => ?_⟩
  rw [hd] at hnone
  cases hnone

end PallaSync
