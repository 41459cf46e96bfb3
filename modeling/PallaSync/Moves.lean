import PallaSync.Ledger

/-!
# Transactions as moves

Every program of a transaction, taken apart once: `append` is a `Logged`
move, `commitEpoch` a list of moves in a fixed order, and so on up to the
requests. A program that reaches `w'` from `w` made `ms` when
`Moves X ms w.cell w'.cell`: its ledger went through exactly these moves,
and neither the stored chain row nor the deletion changed (only `save`,
`delete` and the founding of a staged chain write those).
-/

namespace PallaSync

open Atomic

/-! ## Taking a transaction apart -/

section Inversion

variable {α : Type} {w w' : Work}

@[simp] theorem now_ok {t : Nat} :
    now w = .ok (t, w') ↔ t = w.oracle.now w.tick ∧ w' = { w with tick := w.tick + 1 } := by
  simp [now, eq_comm]

@[simp] theorem newId_ok {id : String} :
    newId w = .ok (id, w') ↔ id = w.oracle.newId w.tick ∧ w' = { w with tick := w.tick + 1 } := by
  simp [newId, eq_comm]

@[simp] theorem chain_ok {c : Chain} : chain w = .ok (c, w') ↔ c = w.cell.chain ∧ w = w' :=
  read_ok

@[simp] theorem look_ok {f : Store → α} {x : α} :
    look f w = .ok (x, w') ↔ x = f w.cell.store ∧ w = w' :=
  read_ok

@[simp] theorem check_ok {f : Store → Chain → Except ApiError α} {x : α} :
    check f w = .ok (x, w') ↔ f w.cell.store w.cell.chain = .ok x ∧ w = w' := by
  unfold check
  cases f w.cell.store w.cell.chain with
  | error e => simp
  | ok y => simp [eq_comm]

@[simp] theorem setStore_ok {f : Store → Store} {u : Unit} :
    setStore f w = .ok (u, w') ↔
      w' = { w with cell := { w.cell with store := f w.cell.store } } :=
  write_ok

@[simp] theorem setChain_ok {f : Chain → Chain} {u : Unit} :
    setChain f w = .ok (u, w') ↔
      w' = { w with cell := { w.cell with chain := f w.cell.chain } } :=
  write_ok

@[simp] theorem attempt_ok {f : Store → Option Store} {u : Unit} :
    attempt f w = .ok (u, w') ↔
      ∃ st, f w.cell.store = some st ∧ w' = { w with cell := { w.cell with store := st } } := by
  unfold attempt
  cases f w.cell.store with
  | none => simp
  | some st => simp [eq_comm]

end Inversion

/-! ## Moves of a transaction -/

structure Moves (X : Crypto) (ms : List Move) (a b : Cell) : Prop where
  steps : Steps X ms a.ledger b.ledger
  chain : b.store.chain = a.store.chain
  deletion : b.store.deletion = a.store.deletion

namespace Moves

variable {X : Crypto} {ms ms' : List Move} {a b d : Cell}

theorem refl (a : Cell) : Moves X [] a a := ⟨.nil, rfl, rfl⟩

/-- Nothing of the ledger was touched. -/
theorem still (h : b.ledger = a.ledger) (hc : b.store.chain = a.store.chain)
    (hd : b.store.deletion = a.store.deletion) : Moves X [] a b :=
  ⟨h ▸ .nil, hc, hd⟩

theorem append (h : Moves X ms a b) (h' : Moves X ms' b d) : Moves X (ms ++ ms') a d :=
  ⟨h.steps.append h'.steps, h'.chain.trans h.chain, h'.deletion.trans h.deletion⟩

theorem cons {m : Move} (h : Moves X [m] a b) (h' : Moves X ms b d) : Moves X (m :: ms) a d :=
  h.append h'

end Moves

section Loops

variable {X : Crypto} {α β : Type} {w w' : Work} {xs : List α}

/-- A loop makes the moves of its elements, in order. -/
theorem each_moves {f : α → Tx Unit} (label : α → Move)
    (hf : ∀ x w w', f x w = .ok ((), w') → Moves X [label x] w.cell w'.cell)
    (h : each f xs w = .ok ((), w')) : Moves X (xs.map label) w.cell w'.cell := by
  induction xs generalizing w with
  | nil =>
      rw [each_nil_ok] at h
      exact h ▸ Moves.refl _
  | cons x xs ih =>
      obtain ⟨w₁, hx, hxs⟩ := each_cons_ok.mp h
      exact (hf x w w₁ hx).cons (ih hxs)

theorem collect_moves {f : α → Tx β} (label : α → Move)
    (hf : ∀ x w w' b, f x w = .ok (b, w') → Moves X [label x] w.cell w'.cell) {bs : List β}
    (h : collect f xs w = .ok (bs, w')) : Moves X (xs.map label) w.cell w'.cell := by
  induction xs generalizing w bs with
  | nil =>
      obtain ⟨-, rfl⟩ := collect_nil_ok.mp h
      exact Moves.refl _
  | cons x xs ih =>
      obtain ⟨b, w₁, bs', hx, hxs, -⟩ := collect_cons_ok.mp h
      exact (hf x w w₁ b hx).cons (ih hxs)

end Loops

/-! ## Objects -/

theorem objectDigest_eq_none {st : Store} {kind : Kind} {id : String} :
    st.objectDigest kind id = none ↔ st.objects.find? (kind, id) = none := by
  simp [Store.objectDigest]

theorem objectDigest_eq_some {st : Store} {kind : Kind} {id digest : String} :
    st.objectDigest kind id = some digest ↔
      ∃ o, st.objects.find? (kind, id) = some o ∧ o.objectHash = digest := by
  simp [Store.objectDigest]

/-- The row `putObject` adds. -/
def newRow (X : Crypto) (kind : Kind) (v : Json) (log : Option (String × Nat)) : ObjectRow where
  kind := kind
  objectId := objectId v kind
  objectHash := X.objectHash v
  body := some v
  logId := log.map (·.1)
  relaySeq := log.map (·.2)

theorem putObject_ok {X : Crypto} {kind : Kind} {v : Json} {log : Option (String × Nat)}
    {w w' : Work} {fresh : Bool} (h : putObject X kind v log w = .ok (fresh, w')) :
    (fresh = false ∧ w' = w ∧ ∃ o, w.cell.store.objects.find? (kind, objectId v kind) = some o ∧
      o.objectHash = X.objectHash v) ∨
    (fresh = true ∧ w.cell.store.objects.find? (kind, objectId v kind) = none ∧
      (∀ k, kind.sibling = some k → w.cell.store.objects.find? (k, objectId v kind) = none) ∧
      ∃ tab, (∀ q, tab.find? q = if q = (kind, objectId v kind) then some (newRow X kind v log)
          else w.cell.store.objects.find? q) ∧
        w' = { w with cell := { w.cell with store := { w.cell.store with objects := tab } } }) := by
  simp only [putObject, bind_ok, look_ok] at h
  obtain ⟨old, _, ⟨rfl, rfl⟩, h⟩ := h
  cases hold : w.cell.store.objectDigest kind (objectId v kind) with
  | some digest =>
      simp only [hold, bind_ok, failIf_ok, pure_ok] at h
      obtain ⟨_, _, ⟨hne, rfl⟩, rfl, rfl⟩ := h
      obtain ⟨o, ho, hd⟩ := objectDigest_eq_some.mp hold
      exact .inl ⟨rfl, rfl, o, ho, hd.trans (by simpa using hne)⟩
  | none =>
      simp only [hold, bind_ok, look_ok, failIf_ok, attempt_ok, pure_ok] at h
      obtain ⟨_, _, ⟨rfl, rfl⟩, _, _, ⟨hsib, rfl⟩, _, _, ⟨st, hst, rfl⟩, rfl, rfl⟩ := h
      obtain ⟨tab, htab, rfl⟩ := Option.map_eq_some_iff.mp hst
      refine .inr ⟨rfl, Table.find?_insert?_free htab, fun k hk => ?_, tab,
        Table.find?_insert? htab, rfl⟩
      rw [hk, Option.bind_some, Option.isSome_eq_false_iff, Option.isNone_iff_eq_none] at hsib
      exact objectDigest_eq_none.mp hsib

/-- Storing without a position is a staging move. -/
theorem putObject_moves {X : Crypto} {kind : Kind} {v : Json} {w w' : Work} {fresh : Bool}
    (hk : kind.staged = true) (h : putObject X kind v none w = .ok (fresh, w')) :
    Moves X [.stage kind v] w.cell w'.cell := by
  obtain ⟨-, rfl, o, ho, hd⟩ | ⟨-, hfree, -, tab, htab, rfl⟩ := putObject_ok h
  · refine ⟨.single (.stage hk ⟨?_, ?_, rfl⟩), rfl, rfl⟩
    · intro x hx
      exact Option.some.inj (ho.symm.trans hx) ▸ hd
    · intro q
      split
      · rename_i hq
        rw [hq, Store.ledger_objects, ho, Option.getD_some]
      · rfl
  · refine ⟨.single (.stage hk ⟨?_, ?_, rfl⟩), rfl, rfl⟩
    · intro x hx
      exact absurd (hfree.symm.trans hx) (by simp)
    · intro q
      simp only [Store.ledger_objects, htab]
      split
      · rename_i hq
        rw [hq, hfree, Option.getD_none]
        rfl
      · rfl

/-! ## Evidence and receipts -/

theorem transparency_ok {X : Crypto} {op : Operation} {digest : String} {seq : Option Nat}
    {code : Option Code} {w w' : Work} {r : TransparencyEntry × String}
    (h : transparency X op digest seq code w = .ok (r, w')) :
    ∃ tab, Noted X op digest seq r.1 w.cell.chain w.cell.store.transparency tab ∧
      w'.cell = ⟨{ w.cell.store with transparency := tab }, w.cell.chain.noted X r.1⟩ ∧
      r.2 = (w.cell.chain.noted X r.1).transparencyHash := by
  simp only [transparency, bind_ok, chain_ok, failIf_ok, now_ok, require_ok, attempt_ok,
    setChain_ok, pure_ok] at h
  obtain ⟨c, _, ⟨rfl, rfl⟩, _, _, ⟨-, rfl⟩, t, _, ⟨-, rfl⟩, sig, _, ⟨-, rfl⟩, _, _,
    ⟨st, hst, rfl⟩, _, _, rfl, rfl, rfl⟩ := h
  obtain ⟨tab, htab, rfl⟩ := Option.map_eq_some_iff.mp hst
  exact ⟨tab, ⟨rfl, rfl, rfl, rfl, rfl, rfl, rfl, rfl, rfl,
    Table.find?_insert?_free htab, Table.find?_insert? htab⟩, rfl, rfl⟩

/-- What `makeReceipt` signs; it writes nothing. -/
theorem makeReceipt_ok {X : Crypto} {v : Json} {seq : Option Nat} {entryHash : Option String}
    {previous : String} {received : Nat} {hash : String} {w w' : Work} {r : Receipt}
    (h : makeReceipt X v seq entryHash previous received hash w = .ok (r, w')) :
    w'.cell = w.cell ∧ r.chainId = w.cell.chain.chainId ∧ r.logId = w.cell.chain.logId ∧
      r.relaySeq = seq ∧ r.objectHash = X.objectHash v ∧ r.entryHash = entryHash ∧
      r.previousHeadHash = previous ∧ r.resultingHeadHash = w.cell.chain.headHash ∧
      r.transparencyId = w.cell.chain.transparencyId ∧
      r.transparencyIndex = w.cell.chain.transparencyIndex ∧ r.transparencyHash = hash := by
  simp only [makeReceipt, bind_ok, chain_ok, newId_ok, require_ok, pure_ok] at h
  obtain ⟨c, _, ⟨rfl, rfl⟩, id, _, ⟨-, rfl⟩, sig, _, ⟨-, rfl⟩, rfl, rfl⟩ := h
  exact ⟨rfl, rfl, rfl, rfl, rfl, rfl, rfl, rfl, rfl, rfl, rfl⟩

theorem storeReceipt_ok {kind : Kind} {id : String} {r : Receipt} {w w' : Work} {u : Unit}
    (h : storeReceipt kind id r w = .ok (u, w')) :
    (r.relaySeq.isSome → ∀ x ∈ w.cell.store.receipts,
      ¬(x.logId = w.cell.chain.logId ∧ x.seq = r.relaySeq)) ∧
    ∃ tab, w.cell.store.receipts.insert? ⟨kind, id, w.cell.chain.logId, r.relaySeq, r⟩ =
        some tab ∧
      w'.cell = { w.cell with store := { w.cell.store with receipts := tab } } := by
  simp only [storeReceipt, bind_ok, chain_ok, look_ok, failIf_ok, attempt_ok] at h
  obtain ⟨c, _, ⟨rfl, rfl⟩, _, _, ⟨rfl, rfl⟩, _, _, ⟨htaken, rfl⟩, st, hst, rfl⟩ := h
  obtain ⟨tab, htab, rfl⟩ := Option.map_eq_some_iff.mp hst
  refine ⟨fun hs x hx => ?_, tab, htab, rfl⟩
  have := List.any_eq_false.mp htaken x hx
  simpa [hs] using this

/-! ## Acceptance -/

theorem adopt_ok {kind : Kind} {id logId : String} {seq : Nat} {w w' : Work} {u : Unit}
    (h : adopt kind id logId seq w = .ok (u, w')) :
    ∃ tab : Table ObjectRow ObjectRow.key,
      (∀ q, tab.find? q = if q = (kind, id) then
          (w.cell.store.objects.find? q).map fun o =>
            if o.logId.isNone then { o with logId := some logId, relaySeq := some seq } else o
        else w.cell.store.objects.find? q) ∧
      w' = { w with cell := { w.cell with store := { w.cell.store with objects := tab } } } := by
  simp only [adopt, setStore_ok] at h
  refine ⟨_, fun q => ?_, h⟩
  rw [Table.find?_update]
  cases ho : w.cell.store.objects.find? q with
  | none => simp
  | some o =>
      obtain rfl : o.key = q := Table.key_of_find? ho
      by_cases hq : o.key = (kind, id)
      · simp [hq, (Prod.mk.inj hq).1, (Prod.mk.inj hq).2]
      · have hne : ¬(o.kind = kind ∧ o.objectId = id) := fun ⟨h₁, h₂⟩ => hq (by rw [← h₁, ← h₂])
        simp [hq, hne]

/-- Storing an object and giving it its position. -/
theorem place_ok {X : Crypto} {kind : Kind} {v : Json} {logId : String} {seq : Nat}
    {w w₁ w₂ : Work} {fresh : Bool} {u : Unit}
    (hput : putObject X kind v (some (logId, seq)) w = .ok (fresh, w₁))
    (hadopt : adopt kind (objectId v kind) logId seq w₁ = .ok (u, w₂)) :
    (∀ o, w.cell.store.objects.find? (kind, objectId v kind) = some o →
      o.objectHash = X.objectHash v) ∧
    (w.cell.store.objects.find? (kind, objectId v kind) = none → ∀ k, kind.sibling = some k →
      w.cell.store.objects.find? (k, objectId v kind) = none) ∧
    ∃ tab : Table ObjectRow ObjectRow.key,
      (∀ q, tab.find? q = if q = (kind, objectId v kind) then
          some (adoptedRow X kind v logId seq (w.cell.store.objects.find? q))
        else w.cell.store.objects.find? q) ∧
      w₂ = { w with cell := { w.cell with store := { w.cell.store with objects := tab } } } := by
  obtain ⟨tab, htab, rfl⟩ := adopt_ok hadopt
  obtain ⟨-, rfl, o, ho, hd⟩ | ⟨-, hfree, hsib, tab', htab', rfl⟩ := putObject_ok hput
  · refine ⟨fun x hx => Option.some.inj (ho.symm.trans hx) ▸ hd, fun h => ?_, tab, fun q => ?_, rfl⟩
    · exact absurd (ho.symm.trans h) (by simp)
    · rw [htab]
      split
      · rename_i hq
        rw [hq, ho]
        rfl
      · rfl
  · refine ⟨fun x hx => absurd (hfree.symm.trans hx) (by simp), fun _ => hsib, tab,
      fun q => ?_, rfl⟩
    rw [htab]
    simp only [htab']
    split
    · rename_i hq
      rw [hq, hfree]
      simp [newRow, adoptedRow]
    · rfl

theorem appendNew_ok {X : Crypto} {kind : Kind} {v : Json} {w w' : Work}
    {r : Option LogEntry × Receipt} (h : appendNew X kind v w = .ok (r, w')) :
    ∃ e te, r.1 = some e ∧ Fresh X kind v e te r.2 w.cell.ledger w'.cell.ledger ∧
      w'.cell.store.chain = w.cell.store.chain ∧
      w'.cell.store.deletion = w.cell.store.deletion := by
  simp only [appendNew, bind_ok, chain_ok, failIf_ok, now_ok, setChain_ok, attempt_ok,
    pure_ok] at h
  obtain ⟨c, _, ⟨rfl, rfl⟩, _, _, ⟨-, rfl⟩, t, _, ⟨-, rfl⟩, put, w₁, hput, _, w₂, hadopt,
    _, w₃, rfl, _, w₄, ⟨st, hst, rfl⟩, acc, w₅, htr, r₁, w₆, hr, _, w₇, hstore, rfl, rfl⟩ := h
  obtain ⟨log, hlog, rfl⟩ := Option.map_eq_some_iff.mp hst
  obtain ⟨hsame, hsib, tab, htab, rfl⟩ := place_ok hput hadopt
  obtain ⟨ttab, hnoted, hw₅, hhash⟩ := transparency_ok htr
  obtain ⟨hw₆, h₁, h₂, h₃, h₄, h₅, h₆, h₇, h₈, h₉, h₁₀⟩ := makeReceipt_ok hr
  obtain ⟨huniq, rtab, hrtab, hw₇⟩ := storeReceipt_ok hstore
  rw [hw₆, hw₅] at huniq hrtab hw₇
  rw [hw₅] at h₁ h₂ h₇ h₈ h₉
  rw [hw₇]
  refine ⟨_, acc.1, rfl, ?_, rfl, rfl⟩
  exact {
    entrySeq := rfl
    entryKind := rfl
    entryObject := rfl
    same := hsame
    sibling := hsib
    objects := htab
    free := Table.find?_insert?_free hlog
    log := Table.find?_insert? hlog
    noted := hnoted
    receipted := {
      chainId := h₁
      logId := h₂
      relaySeq := h₃
      objectHash := h₄
      entryHash := h₅
      previousHeadHash := h₆
      resultingHeadHash := h₇
      transparencyId := h₈
      transparencyIndex := h₉
      transparencyHash := h₁₀.trans hhash
      free := Table.find?_insert?_free hrtab
      unique := fun _ => h₃ ▸ huniq (h₃ ▸ rfl)
      find? := h₃ ▸ Table.find?_insert? hrtab }
    registry := rfl
    handoffs := rfl
    chain := rfl }

theorem accepted?_some {X : Crypto} {kind : Kind} {v : Json} {c : Chain} {st : Store}
    {entry : Option LogEntry} {r : Receipt}
    (h : accepted? X kind v st = .ok (some (entry, r))) : Again X kind v entry r (st.ledger c) := by
  unfold accepted? at h
  cases hd : st.objectDigest kind (objectId v kind) with
  | none => simp [hd] at h
  | some digest =>
      obtain ⟨o, ho, hod⟩ := objectDigest_eq_some.mp hd
      simp only [hd] at h
      split at h
      · cases h
      · rename_i hne
        split at h
        · cases h
        · rename_i r' hr
          split at h
          · cases h
          · rename_i row hrow
            obtain ⟨rr, hrr, hrr'⟩ : ∃ rr, st.receipts.find? (kind, objectId v kind) = some rr ∧
                rr.receipt = r' := by simpa [Store.receipt] using hr
            simp only [Except.ok.injEq, Option.some.injEq, Prod.mk.injEq] at h
            obtain ⟨rfl, rfl⟩ := h
            exact ⟨⟨o, ho, hod.trans (not_not.mp hne)⟩, ⟨rr, hrr, hrr'⟩, ⟨row, hrow, rfl⟩⟩

/-- `append` is a `Logged` move. -/
theorem append_ok {X : Crypto} {kind : Kind} {v : Json} {w w' : Work}
    {r : Option LogEntry × Receipt} (h : append X kind v w = .ok (r, w')) :
    Logged X kind v r.1 r.2 w.cell.ledger w'.cell.ledger ∧
      w'.cell.store.chain = w.cell.store.chain ∧
      w'.cell.store.deletion = w.cell.store.deletion := by
  simp only [append, bind_ok, check_ok] at h
  obtain ⟨before, _, ⟨hacc, rfl⟩, h⟩ := h
  cases before with
  | some original =>
      obtain ⟨rfl, rfl⟩ := pure_ok.mp h
      exact ⟨.again (accepted?_some hacc), rfl, rfl⟩
  | none =>
      obtain ⟨e, te, he, hfresh, hc, hd⟩ := appendNew_ok h
      exact ⟨he ▸ .fresh hfresh, hc, hd⟩

theorem append_moves {X : Crypto} {kind : Kind} {v : Json} {w w' : Work}
    {r : Option LogEntry × Receipt} (hk : kind.logged = true)
    (h : append X kind v w = .ok (r, w')) : Moves X [.log kind v] w.cell w'.cell :=
  have ⟨hl, hc, hd⟩ := append_ok h
  ⟨.single (.log hk hl), hc, hd⟩

theorem snapshotPart_moves {X : Crypto} {v : Json} {w w' : Work} {r : Receipt}
    (h : snapshotPart X v w = .ok (r, w')) : Moves X [.part v] w.cell w'.cell := by
  simp only [snapshotPart, bind_ok] at h
  obtain ⟨fresh, w₁, hput, h⟩ := h
  obtain ⟨rfl, rfl, -⟩ | ⟨rfl, hfree, hsib, tab, htab, rfl⟩ := putObject_ok hput
  · simp only [Bool.false_eq_true, if_false, bind_ok, look_ok, require_ok] at h
    obtain ⟨_, _, ⟨-, rfl⟩, -, rfl⟩ := h
    exact ⟨.single .partAgain, rfl, rfl⟩
  · simp only [if_true, bind_ok, chain_ok, now_ok, pure_ok] at h
    obtain ⟨acc, w₂, htr, _, _, ⟨rfl, rfl⟩, t, _, ⟨-, rfl⟩, r₁, w₃, hr, _, w₄, hstore, rfl,
      rfl⟩ := h
    obtain ⟨ttab, hnoted, hw₂, hhash⟩ := transparency_ok htr
    obtain ⟨hw₃, h₁, h₂, h₃, h₄, h₅, h₆, h₇, h₈, h₉, h₁₀⟩ := makeReceipt_ok hr
    obtain ⟨-, rtab, hrtab, hw₄⟩ := storeReceipt_ok hstore
    rw [hw₃, hw₂] at hrtab hw₄
    rw [hw₂] at h₁ h₂ h₆ h₇ h₈ h₉
    rw [hw₄]
    refine ⟨.single (.part (?_ : PartFresh X v acc.1 r _ _)), rfl, rfl⟩
    exact {
      free := hfree
      sibling := hsib .record rfl
      objects := htab
      noted := hnoted
      receipted := {
        chainId := h₁
        logId := h₂
        relaySeq := h₃
        objectHash := h₄
        entryHash := h₅
        previousHeadHash := h₆
        resultingHeadHash := h₇
        transparencyId := h₈
        transparencyIndex := h₉
        transparencyHash := h₁₀.trans hhash
        free := Table.find?_insert?_free hrtab
        unique := fun he => absurd he Bool.false_ne_true
        find? := h₃ ▸ Table.find?_insert? hrtab }
      registry := rfl
      log := rfl
      handoffs := rfl
      chain := rfl }

theorem transparency_moves {X : Crypto} {op : Operation} {digest : String}
    {code : Option Code} {w w' : Work} {r : TransparencyEntry × String} (hop : op ≠ .accept)
    (h : transparency X op digest none code w = .ok (r, w')) :
    Moves X [.evidence op digest] w.cell w'.cell := by
  obtain ⟨tab, hnoted, hw, -⟩ := transparency_ok h
  rw [hw]
  exact ⟨.single (.evidence ⟨hop, ⟨r.1, hnoted, rfl⟩, rfl, rfl, rfl, rfl, rfl⟩), rfl, rfl⟩

/-! ## Membership -/

theorem insertRegistry_ok {st st' : Store} {r : RegistryRow}
    (h : st.insertRegistry r = some st') :
    ∃ tab, st.registry.insert? r = some tab ∧
      st' = { st with registry := tab, registryHistory := st.recordRegistry [r] } := by
  obtain ⟨tab, htab, rfl⟩ := Option.map_eq_some_iff.mp h
  exact ⟨tab, htab, rfl⟩

theorem register_ok {d : Json} {seq : Nat} {status : Status} {w w' : Work} {u : Unit}
    (h : register d seq status w = .ok (u, w')) :
    Registered d seq status w.cell.ledger w'.cell.ledger ∧
      w'.cell.store.chain = w.cell.store.chain ∧
      w'.cell.store.deletion = w.cell.store.deletion := by
  simp only [register, attempt_ok] at h
  obtain ⟨st, hst, rfl⟩ := h
  obtain ⟨tab, htab, rfl⟩ := insertRegistry_ok hst
  exact ⟨⟨Table.find?_insert?_free htab, Table.find?_insert? htab, rfl⟩, rfl, rfl⟩

/-- `enlist`, with the registered position. -/
theorem enlist_ok {X : Crypto} {status : Status} {d : Json} {w w' : Work} {r : Receipt}
    (h : enlist X status d w = .ok (r, w')) :
    ∃ entry M, Logged X .device d entry r w.cell.ledger M ∧
      Registered d (entrySeq entry) status M w'.cell.ledger ∧
      w'.cell.store.chain = w.cell.store.chain ∧
      w'.cell.store.deletion = w.cell.store.deletion := by
  simp only [enlist, bind_ok, pure_ok] at h
  obtain ⟨⟨entry, r⟩, w₁, happ, _, w₂, hreg, rfl, rfl⟩ := h
  obtain ⟨hl, hc, hd⟩ := append_ok happ
  obtain ⟨hr, hc', hd'⟩ := register_ok hreg
  exact ⟨entry, _, hl, hr, hc'.trans hc, hd'.trans hd⟩

theorem enlist_moves {X : Crypto} {status : Status} {d : Json} {w w' : Work} {r : Receipt}
    (h : enlist X status d w = .ok (r, w')) : Moves X [.enlist status d] w.cell w'.cell :=
  have ⟨_, _, hl, hr, hc, hd⟩ := enlist_ok h
  ⟨.single (.enlist hl hr), hc, hd⟩

theorem revoke_moves {X : Crypto} {seq : Nat} {id : String} {w w' : Work} {u : Unit}
    (h : revoke seq id w = .ok (u, w')) : Moves X [.revoke seq id] w.cell w'.cell := by
  simp only [revoke, setStore_ok] at h
  subst h
  refine ⟨.single (.revoke ?_), rfl, rfl⟩
  refine ⟨fun q => ?_, rfl⟩
  simp only [Store.ledger_registry, Store.updateRegistry, Table.find?_update, beq_iff_eq]
  rfl

theorem activate_moves {X : Crypto} {id : String} {w w' : Work} {u : Unit}
    (h : activate id w = .ok (u, w')) : Moves X [.activate id] w.cell w'.cell := by
  simp only [activate, setStore_ok] at h
  subst h
  refine ⟨.single (.activate ?_), rfl, rfl⟩
  refine ⟨fun q => ?_, rfl⟩
  simp only [Store.ledger_registry, Store.updateRegistry, Table.find?_update, Bool.and_eq_true,
    beq_iff_eq, bne_iff_ne]
  rfl

theorem setEpoch_moves {X : Crypto} {e : Json} {w w' : Work} {u : Unit}
    (h : setChain (fun c => { c with epoch := e }) w = .ok (u, w')) :
    Moves X [.setEpoch e] w.cell w'.cell := by
  simp only [setChain_ok] at h
  subst h
  exact ⟨.single .setEpoch, rfl, rfl⟩

/-- The moves of an epoch commit before its own entry. -/
def EpochCommit.before (commit : EpochCommit) : List Move :=
  (sortDevices commit.staged).map
      (.enlist (if commit.genesis then .active else .pendingKeys)) ++
    (sortEnvelopes commit.envelopes).map (.log .envelope) ++
    commit.admin.toList.map (.log .admin)

/-- The moves of an epoch commit after its own entry, at position `seq`. -/
def EpochCommit.after (commit : EpochCommit) (seq : Nat) : List Move :=
  (strings commit.epoch "revoked_device_ids").map (.revoke seq) ++ [.setEpoch commit.epoch]

/-- A committed epoch: its devices, envelopes and authorization first, then
its own entry, then the revocations at the position of that entry. -/
structure Committed (X : Crypto) (commit : EpochCommit) (L M M' L' : Ledger)
    (entry : Option LogEntry) (r : Receipt) : Prop where
  before : Steps X commit.before L M
  logged : Logged X .epoch commit.epoch entry r M M'
  after : Steps X (commit.after (entrySeq entry)) M' L'

theorem commitEpoch_ok {X : Crypto} {commit : EpochCommit} {w w' : Work}
    {r : Option LogEntry × List Receipt} (h : commitEpoch X commit w = .ok (r, w')) :
    (∃ M M' rr, Committed X commit w.cell.ledger M M' w'.cell.ledger r.1 rr) ∧
      w'.cell.store.chain = w.cell.store.chain ∧
      w'.cell.store.deletion = w.cell.store.deletion := by
  simp only [commitEpoch, bind_ok, pure_ok] at h
  obtain ⟨rs, w₁, h₁, es, w₂, h₂, as, w₃, h₃, ⟨entry, rr⟩, w₄, h₄, _, w₅, h₅, _, w₆, h₆, rfl,
    rfl⟩ := h
  have m₁ : Moves X _ w.cell w₁.cell :=
    collect_moves (.enlist (if commit.genesis then .active else .pendingKeys))
      (fun _ _ _ _ => enlist_moves) h₁
  have m₂ : Moves X _ w₁.cell w₂.cell :=
    collect_moves (.log .envelope) (fun _ _ _ _ => append_moves rfl) h₂
  have m₃ : Moves X _ w₂.cell w₃.cell :=
    collect_moves (.log .admin) (fun _ _ _ _ => append_moves rfl) h₃
  obtain ⟨m₄, hc₄, hd₄⟩ := append_ok h₄
  have m₅ : Moves X _ w₄.cell w₅.cell :=
    each_moves (.revoke (entrySeq entry)) (fun _ _ _ => revoke_moves) h₅
  have m₆ : Moves X _ w₅.cell w₆.cell := setEpoch_moves h₆
  have m := (m₁.append m₂).append m₃
  have m' := m₅.append m₆
  exact ⟨⟨_, _, rr, m.steps, m₄, m'.steps⟩, m'.chain.trans (hc₄.trans m.chain),
    m'.deletion.trans (hd₄.trans m.deletion)⟩

end PallaSync
