import PallaSync.Commits
import PallaSync.Evidence

/-!
# The course of a chain

Seen from its ledger, a chain has few ways to go on. It is founded; its
epoch is succeeded; it is pruned; handed-off epochs expire; it is re-seeded
into a new log; and everything else is an ordinary step, which leaves the
terms of the chain (its parameters, epoch, log and boundary) as they were.
`Commit.course` sorts every committed transaction into these passages. The
laws about the line of epochs, the boundary and the handoffs are then proved
by cases on the passage, whichever request it came from.
-/

namespace PallaSync

/-! ## Moves that keep the terms -/

/-- The moves that leave the terms of the chain and the handoffs alone, on a
chain that goes on. -/
def Move.ordinary : Move → Bool
  | .log .. | .enlist .. | .part _ | .stage .. | .revoke .. | .activate _ => true
  | .evidence op _ => op != .delete
  | .setEpoch _ | .prune .. | .handoff _ | .expire _ | .found _ | .reincarnate .. => false

/-- The terms of the chain are the same. -/
structure SameTerms (L L' : Ledger) : Prop where
  chainId : L'.chain.chainId = L.chain.chainId
  parameters : L'.chain.parameters = L.chain.parameters
  epoch : L'.chain.epoch = L.chain.epoch
  logId : L'.chain.logId = L.chain.logId
  minAvailableSeq : L'.chain.minAvailableSeq = L.chain.minAvailableSeq
  boundary : L'.chain.boundaryCompactionId = L.chain.boundaryCompactionId
  transparencyId : L'.chain.transparencyId = L.chain.transparencyId
  writable : L'.chain.writable = L.chain.writable
  handoffs : L'.handoffs = L.handoffs

namespace SameTerms

variable {L M L' : Ledger}

theorem refl (L : Ledger) : SameTerms L L := ⟨rfl, rfl, rfl, rfl, rfl, rfl, rfl, rfl, rfl⟩

theorem trans (h : SameTerms L M) (h' : SameTerms M L') : SameTerms L L' :=
  ⟨h'.chainId.trans h.chainId, h'.parameters.trans h.parameters, h'.epoch.trans h.epoch,
    h'.logId.trans h.logId, h'.minAvailableSeq.trans h.minAvailableSeq,
    h'.boundary.trans h.boundary, h'.transparencyId.trans h.transparencyId,
    h'.writable.trans h.writable, h'.handoffs.trans h.handoffs⟩

theorem of_eq (hc : L'.chain = L.chain) (hh : L'.handoffs = L.handoffs) : SameTerms L L' := by
  refine ⟨?_, ?_, ?_, ?_, ?_, ?_, ?_, ?_, hh⟩ <;> rw [hc]

/-- Only the two heads of the chain row moved. -/
theorem of_noted {X : Crypto} {te : TransparencyEntry} (hc : L'.chain = L.chain.noted X te)
    (hh : L'.handoffs = L.handoffs) : SameTerms L L' := by
  refine ⟨?_, ?_, ?_, ?_, ?_, ?_, ?_, ?_, hh⟩ <;> rw [hc] <;> rfl

theorem of_extended {X : Crypto} {e : LogEntry} {te : TransparencyEntry}
    (hc : L'.chain = (L.chain.extended X e).noted X te) (hh : L'.handoffs = L.handoffs) :
    SameTerms L L' := by
  refine ⟨?_, ?_, ?_, ?_, ?_, ?_, ?_, ?_, hh⟩ <;> rw [hc] <;> rfl

end SameTerms

theorem Logged.sameTerms {X : Crypto} {kind : Kind} {v : Json} {entry : Option LogEntry}
    {r : Receipt} {L L' : Ledger} (h : Logged X kind v entry r L L') : SameTerms L L' := by
  cases h with
  | again _ => exact .refl _
  | fresh h => exact .of_extended h.chain h.handoffs

theorem Witnessed.sameTerms {X : Crypto} {op : Operation} {digest : String} {L L' : Ledger}
    (h : Witnessed X op digest L L') : SameTerms L L' := by
  obtain ⟨te, -, hc⟩ := h.noted
  exact .of_noted hc h.handoffs

theorem Step.sameTerms {X : Crypto} {m : Move} {L L' : Ledger} (h : Step X m L L')
    (hm : m.ordinary = true) : SameTerms L L' := by
  cases h with
  | log _ hl => exact hl.sameTerms
  | enlist hl hr => exact hl.sameTerms.trans (.of_eq (by rw [hr.rest]) (by rw [hr.rest]))
  | partAgain => exact .refl _
  | part hp => exact .of_noted hp.chain hp.handoffs
  | evidence hw => exact hw.sameTerms
  | stage _ hs => exact .of_eq (by rw [hs.rest]) (by rw [hs.rest])
  | revoke hw => exact .of_eq (by rw [hw.rest]) (by rw [hw.rest])
  | activate hw => exact .of_eq (by rw [hw.rest]) (by rw [hw.rest])
  | setEpoch | prune _ _ _ _ _ | handoff _ _ | expire _ _ _ _ | found _ _ | reincarnate _ _ =>
      cases hm

/-- Some ordinary moves, one after the other. -/
def Ordinary (X : Crypto) (L L' : Ledger) : Prop :=
  ∃ ms : List Move, (∀ m ∈ ms, m.ordinary = true) ∧ Steps X ms L L'

namespace Ordinary

variable {X : Crypto} {L M L' : Ledger}

theorem refl (L : Ledger) : Ordinary X L L := ⟨[], by simp, .nil⟩

theorem trans (h : Ordinary X L M) (h' : Ordinary X M L') : Ordinary X L L' := by
  obtain ⟨ms, hms, hs⟩ := h
  obtain ⟨ms', hms', hs'⟩ := h'
  exact ⟨ms ++ ms', List.forall_mem_append.mpr ⟨hms, hms'⟩, hs.append hs'⟩

theorem of_steps {ms : List Move} (h : Steps X ms L L') (hms : ∀ m ∈ ms, m.ordinary = true) :
    Ordinary X L L' :=
  ⟨ms, hms, h⟩

theorem of_logged {kind : Kind} {v : Json} {entry : Option LogEntry} {r : Receipt}
    (hk : kind.logged = true) (h : Logged X kind v entry r L L') : Ordinary X L L' :=
  ⟨[.log kind v], by simp [Move.ordinary], .single (.log hk h)⟩

/-- What every ordinary move preserves. -/
theorem preserves {P : Ledger → Prop} (h : Ordinary X L L')
    (hstep : ∀ m L L', m.ordinary = true → Step X m L L' → P L → P L') (hP : P L) : P L' :=
  have ⟨_, hms, hs⟩ := h
  hs.preserves hstep hms hP

theorem sameTerms (h : Ordinary X L L') : SameTerms L L' :=
  h.preserves (fun _ _ _ hm hs hP => hP.trans (hs.sameTerms hm)) (.refl L)

theorem grows (h : Ordinary X L L') : Grows L L' :=
  have ⟨_, _, hs⟩ := h
  hs.grows

end Ordinary

/-! ## The first entry of a new log -/

/-- The moves that write the log. -/
def Move.logs : Move → Bool
  | .log .. | .enlist .. => true
  | _ => false

def Move.admits : Move → Bool
  | .enlist .. => true
  | _ => false

theorem Move.ordinary_of_logs {m : Move} (h : m.logs = true) : m.ordinary = true := by
  cases m <;> first | rfl | cases h

/-- At the start of a log, a move that writes it finds its first position
free or does nothing; admitting a device is never nothing. -/
theorem Step.first {X : Crypto} {m : Move} {L L' : Ledger} (h : Step X m L L')
    (hm : m.logs = true) (h0 : L.chain.headSeq = 0) (henr : L.Enrolled) :
    L.log.find? (L.chain.logId, 1) = none ∨ L' = L ∧ m.admits = false := by
  have hfree : ∀ {kind v e te r M}, Fresh X kind v e te r L M →
      L.log.find? (L.chain.logId, 1) = none := fun hf => by
    have h₁ := hf.free
    rw [h0] at h₁
    exact h₁
  cases h with
  | log _ hl =>
      cases hl with
      | again _ => exact .inr ⟨rfl, rfl⟩
      | fresh hf => exact .inl (hfree hf)
  | enlist hl hr =>
      obtain ⟨e, te, -, hf⟩ := henr.fresh hl hr
      exact .inl (hfree hf)
  | partAgain | part _ | evidence _ | stage _ _ | revoke _ | activate _ | setEpoch
  | prune _ _ _ _ _ | handoff _ _ | expire _ _ _ _ | found _ _ | reincarnate _ _ => cases hm

theorem Steps.first {X : Crypto} {ms : List Move} {L L' : Ledger} (h : Steps X ms L L')
    (hms : ∀ m ∈ ms, m.logs = true) (h0 : L.chain.headSeq = 0) (henr : L.Enrolled) :
    L.log.find? (L.chain.logId, 1) = none ∨ L' = L ∧ ∀ m ∈ ms, m.admits = false := by
  induction h with
  | nil => exact .inr ⟨rfl, by simp⟩
  | cons hm _ ih =>
      obtain hfree | ⟨rfl, hadm⟩ := hm.first (hms _ List.mem_cons_self) h0 henr
      · exact .inl hfree
      · obtain hfree | ⟨rfl, hadm'⟩ := ih (fun m hm => hms m (List.mem_cons_of_mem _ hm)) h0 henr
        · exact .inl hfree
        · exact .inr ⟨rfl, List.forall_mem_cons.mpr ⟨hadm, hadm'⟩⟩

theorem Adopts.logs {m : Move} {L : Ledger} (h : Adopts m L) : m.logs = true := by
  cases m <;> first | rfl | exact h.elim

/-- The moves of a guarded path, when the guard allows only such moves. -/
theorem Guided.steps_of {X : Crypto} {Q : Move → Ledger → Prop} {C : Move → Prop}
    {ms : List Move} {L L' : Ledger} (h : Guided X Q ms L L') (hQ : ∀ m L, Q m L → C m) :
    Steps X ms L L' ∧ ∀ m ∈ ms, C m := by
  induction h with
  | nil => exact ⟨.nil, by simp⟩
  | cons hq hm _ ih => exact ⟨.cons hm ih.1, List.forall_mem_cons.mpr ⟨hQ _ _ hq, ih.2⟩⟩

theorem Path.ordinary {X : Crypto} {Q : Move → Ledger → Prop} {a b : Cell}
    (h : Path X Q a b) (hQ : ∀ m L, Q m L → m.ordinary = true) : Ordinary X a.ledger b.ledger :=
  have ⟨ms, hg⟩ := h.guided
  have ⟨hs, hms⟩ := hg.steps_of hQ
  ⟨ms, hms, hs⟩

theorem EpochCommit.before_logs (commit : EpochCommit) : ∀ m ∈ commit.before, m.logs = true := by
  simp only [EpochCommit.before, List.mem_append, List.mem_map]
  rintro m ((⟨d, -, rfl⟩ | ⟨e, -, rfl⟩) | ⟨o, -, rfl⟩) <;> rfl

theorem EpochCommit.admits {commit : EpochCommit} (h : commit.staged ≠ []) :
    ∃ m ∈ commit.before, m.admits = true := by
  obtain ⟨d, hd⟩ := List.exists_mem_of_ne_nil _ h
  have hd' : d ∈ sortDevices commit.staged := (List.perm_insertionSort _ _).symm.subset hd
  refine ⟨_, List.mem_append_left _ (List.mem_append_left _ (List.mem_map_of_mem hd')), ?_⟩
  split <;> rfl

/-- A re-seed writes the log first, up to its members. -/
theorem Reseeded.opens {R : Relay} {v : Json} {imported : Import} {c : Chain} {a mid b : Cell}
    (h : Reseeded R v imported c a mid b) :
    ∃ ms M ms', Steps R.crypto ms (a.store.ledger c) M ∧ (∀ m ∈ ms, m.logs = true) ∧
      (∃ m ∈ ms, m.admits = true) ∧ Steps R.crypto ms' M b.ledger ∧
      ∀ m ∈ ms', ∀ c', m ≠ .found c' := by
  obtain ⟨ms, hg⟩ := h.adopted.guided
  obtain ⟨hsteps, hms⟩ := hg.steps_of fun _ _ => Adopts.logs
  obtain ⟨M₀, M, M', entry, r, done, hp, hc, -, hcompaction⟩ := h.moves
  refine ⟨_, M, _, hsteps.append (hp.append hc.before), fun m hm => ?_, ?_,
    (Steps.single (.log rfl hc.logged)).append (hc.after.append hcompaction), ?_⟩
  · rcases List.mem_append.mp hm with hm | hm
    · exact hms m hm
    · rcases List.mem_append.mp hm with hm | hm
      · obtain rfl := List.mem_singleton.mp hm
        rfl
      · exact EpochCommit.before_logs _ m hm
  · obtain ⟨m, hm, hadm⟩ := EpochCommit.admits
      (show (reseedCommit v).staged ≠ [] from (reseedCheck_ok h.checked).devices)
    exact ⟨m, List.mem_append_right _ (List.mem_append_right _ hm), hadm⟩
  · simp only [EpochCommit.after, List.mem_append, List.mem_map, List.mem_singleton]
    rintro m (rfl | (⟨_, -, rfl⟩ | rfl) | rfl) c' hc' <;> cases hc'

/-- The log a re-seed opens is new: it has no position yet. -/
theorem Reseeded.fresh {R : Relay} {v : Json} {imported : Import} {c : Chain} {a mid b : Cell}
    (h : Reseeded R v imported c a mid b) (hs : Sound R.crypto a.ledger) (i : Nat) :
    a.store.log.find? (imported.logId, i) = none := by
  obtain ⟨ms, M, ms', hsteps, hlogs, ⟨m, hm, hadmits⟩, -⟩ := h.opens
  obtain ⟨notice, rfl⟩ := h.chain
  obtain hfree | ⟨-, hadm⟩ := hsteps.first hlogs rfl hs.enrolled
  · exact hs.first_row hfree i
  · have := hadm m hm
    rw [hadmits] at this
    cases this

/-! ## Passages -/

/-- The ledger under another epoch. -/
abbrev Ledger.atEpoch (L : Ledger) (e : Json) : Ledger :=
  { L with chain := { L.chain with epoch := e } }

/-- The epoch `e` follows the one of the chain row. -/
structure Succeeds (X : Crypto) (c : Chain) (e : Json) : Prop where
  number : n e "epoch" = n c.epoch "epoch" + 1
  previous : s e "previous_epoch_hash" = c.epochHash X

/-- The parameters `p` follow those of the chain row. -/
structure Renews (X : Crypto) (c : Chain) (p : Json) : Prop where
  chainId : s p "chain_id" = c.chainId
  adminPublicKey : s p "admin_public_key" = c.adminPublicKey
  generation : n p "generation" = c.generation + 1
  previous : s p "previous_parameters_hash" = c.parametersHash X

/-- The ways a stored chain goes on, from the cell `a` to the ledger `L'`; a
new epoch, and new parameters, are those of the call that is executed. -/
inductive Passage (R : Relay) (cause : Option Call) (a : Cell) (L' : Ledger) : Prop where
  | ordinary : Ordinary R.crypto a.ledger L' → Passage R cause a L'
  | rotated {call M} : cause = some call → call.route = .epochsPost ∨ call.route = .revoke →
      Ordinary R.crypto a.ledger M → Succeeds R.crypto a.chain (call.value.get "epoch") →
      L' = M.atEpoch (call.value.get "epoch") → Passage R cause a L'
  | pruned {call comp rows expired mid b} : cause = some call → call.route = .prune →
      Pruned R call.value comp rows expired a mid b → L' = b.ledger → Passage R cause a L'
  | expired {es : List Nat} : Steps R.crypto (es.map .expire) a.ledger L' → Passage R cause a L'
  | reseeded {call logId notice M} : cause = some call → call.route = .reseed →
      Renews R.crypto a.chain (call.value.get "parameters") →
      (∀ i, a.store.log.find? (logId, i) = none) →
      Ordinary R.crypto
        (a.store.ledger (a.chain.reseeded R.crypto (call.value.get "parameters") logId notice)) M →
      Succeeds R.crypto a.chain (call.value.get "epoch") →
      Ordinary R.crypto (M.atEpoch (call.value.get "epoch")) L' → Passage R cause a L'

/-- The ways an undeleted chain goes on, with its row. -/
inductive Course (R : Relay) (id : String) (cause : Option Call) (st st' : Store) : Prop where
  | absent : st.chain = none → st'.chain = none → (∀ c, st'.ledger c = st.ledger c) →
      Course R id cause st st'
  | founded {c c' p e logId tid notice} : st.chain = none → st'.chain = some c' →
      { c with writable := true } = Chain.new R.crypto p e logId tid notice → c.chainId = id →
      Ordinary R.crypto (st.ledger c) (st'.ledger c') → Course R id cause st st'
  | passed {c c'} : st.chain = some c → st'.chain = some c' →
      Passage R cause ⟨st, c⟩ (st'.ledger c') → Course R id cause st st'

/-! ## Commits as passages -/

theorem Steps.of_append {X : Crypto} {ms ms' : List Move} {L L' : Ledger}
    (h : Steps X (ms ++ ms') L L') : ∃ M, Steps X ms L M ∧ Steps X ms' M L' := by
  induction ms generalizing L with
  | nil => exact ⟨L, .nil, h⟩
  | cons m ms ih =>
      obtain _ | ⟨hm, hs⟩ := h
      obtain ⟨M, h₁, h₂⟩ := ih hs
      exact ⟨M, .cons hm h₁, h₂⟩

/-- An epoch commit is ordinary but for the change of the epoch, which is its
last move. -/
theorem Committed.split {X : Crypto} {commit : EpochCommit} {L M M' L' : Ledger}
    {entry : Option LogEntry} {r : Receipt} (h : Committed X commit L M M' L' entry r) :
    ∃ N, Ordinary X L N ∧ L' = N.atEpoch commit.epoch := by
  obtain ⟨N, hrev, hset⟩ := Steps.of_append h.after
  obtain _ | ⟨hset, hnil⟩ := hset
  obtain _ | _ := hnil
  obtain _ | _ := hset
  refine ⟨N, .trans (.of_steps h.before fun m hm => ?_)
    (.trans (.of_logged rfl h.logged) (.of_steps hrev fun m hm => ?_)), rfl⟩
  · exact Move.ordinary_of_logs (commit.before_logs m hm)
  · obtain ⟨id, -, rfl⟩ := List.mem_map.mp hm
    rfl

theorem Store.ledger_congr {st st' : Store} {c c' : Chain} (h : st'.ledger c' = st.ledger c)
    (d : Chain) : st'.ledger d = st.ledger d :=
  congrArg (fun L : Ledger => { L with chain := d }) h

/-- Staging does not look at the chain row. -/
theorem Staged.over {X : Crypto} {kind : Kind} {v : Json} {L M : Ledger} (h : Staged X kind v L M)
    (d : Chain) : Staged X kind v { L with chain := d } { M with chain := d } :=
  ⟨h.same, h.objects, congrArg (fun N : Ledger => { N with chain := d }) h.rest⟩

/-- What an import stages leaves the chain row alone, and goes over to any other. -/
theorem Guided.over {X : Crypto} {v : Json} {ms : List Move} {L L' : Ledger}
    (h : Guided X (Stages X v) ms L L') (d : Chain) : L'.chain = L.chain ∧
      Guided X (Stages X v) ms { L with chain := d } { L' with chain := d } := by
  induction h with
  | nil => exact ⟨rfl, .nil⟩
  | cons hq hm _ ih =>
      cases hm with
      | stage hk hs =>
          obtain ⟨hc, hrest⟩ := ih
          exact ⟨hc.trans (by rw [hs.rest]), .cons hq (.stage hk (hs.over d)) hrest⟩
      | log _ _ | enlist _ _ | partAgain | part _ | evidence _ | revoke _ | activate _ | setEpoch
      | prune _ _ _ _ _ | handoff _ _ | expire _ _ _ _ | found _ _ | reincarnate _ _ =>
          exact hq.elim

/-- An import stages objects and leaves the chain row alone. -/
theorem Path.staged {X : Crypto} {v : Json} {a b : Cell} (h : Path X (Stages X v) a b) (d : Chain) :
    b.chain = a.chain ∧ Ordinary X (a.store.ledger d) (b.store.ledger d) := by
  obtain ⟨ms, hg⟩ := h.guided
  obtain ⟨hc, hover⟩ := hg.over d
  obtain ⟨hsteps, hms⟩ := hover.steps_of (C := fun m => m.ordinary = true) fun m L hq => by
    cases m with
    | stage _ _ => rfl
    | _ => exact hq.elim
  exact ⟨hc, ms, hms, hsteps⟩

/-- A request that names its chain in its body is about that chain. -/
def Call.Bound (call : Call) : Prop :=
  call.route = .genesis ∨ call.route = .importChain →
    ∃ p, proposedParameters call.route call.value = some p ∧ s p "chain_id" = call.chain

/-- A law of the ledger of an undeleted chain. -/
def Store.Holds (P : Ledger → Prop) (st : Store) : Prop :=
  st.deletion = none → match st.chain with
    | none => (st.ledger .unset).Bare
    | some c => P (st.ledger c)

/-- The agreement of a ledger, under the chain's own identifier. -/
structure Settled (X : Crypto) (id : String) (L : Ledger) : Prop where
  chainId : L.chain.chainId = id
  sound : Sound X L

section Courses

variable {R : Relay} {id : String} {st st' : Store} {a b mid : Cell} {call : Call}
  {cause : Option Call}

/-- Nothing happened to the ledger. -/
theorem course_still (hc : st'.chain = st.chain) (hl : ∀ c, st'.ledger c = st.ledger c) :
    Course R id cause st st' := by
  cases hst : st.chain with
  | none => exact .absent hst (hc.trans hst) hl
  | some c => exact .passed hst (hc.trans hst) (.ordinary (hl c ▸ .refl _))

theorem Still.course (h : Still st.cell b) : Course R id cause st b.store :=
  course_still h.chain fun c => Store.ledger_congr h.ledger c

/-- A passage that was written back. -/
theorem course_saved {c : Chain} (hc : st.chain = some c) (h : Passage R cause st.cell mid.ledger)
    (hs : Saved mid b) : Course R id cause st b.store := by
  have hcell : st.cell = ⟨st, c⟩ := by rw [Store.cell, hc, Option.getD_some]
  rw [hcell] at h
  refine .passed hc hs.stored ?_
  rw [show b.store.ledger b.chain = mid.ledger from hs.ledger]
  exact h

theorem Moves.ordinary {X : Crypto} {ms : List Move} (h : Moves X ms a b)
    (hms : ∀ m ∈ ms, m.ordinary = true) : Ordinary X a.ledger b.ledger :=
  .of_steps h.steps hms

theorem Move.ordinary_of_isEvidence {m : Move} (h : m.isEvidence) : m.ordinary = true := by
  cases m with
  | evidence op digest => exact bne_iff_ne.mpr h.2
  | _ => exact h.elim

theorem Reseeded.passage {imported : Import} {c : Chain} (hroute : call.route = .reseed)
    (h : Reseeded R call.value imported c a mid b) (hs : Sound R.crypto a.ledger) :
    Passage R (some call) a b.ledger := by
  have hfree := h.fresh hs
  obtain ⟨notice, rfl⟩ := h.chain
  obtain ⟨M₀, M, M', entry, r, done, hp, hc, -, hcomp⟩ := h.moves
  obtain ⟨N, hN, hdone⟩ := hc.split
  rw [hdone] at hcomp
  have hadopt : Ordinary R.crypto _ mid.ledger :=
    h.adopted.ordinary fun _ _ hq => Move.ordinary_of_logs hq.logs
  have hpar : Ordinary R.crypto mid.ledger M₀ := .of_steps hp (by simp [Move.ordinary])
  have hok := reseedCheck_ok h.checked
  have hnext := (reseedEpochCheck_ok h.epochChecked).succession.next rfl
  have hterms := hadopt.sameTerms
  have hepoch : mid.chain.epoch = a.chain.epoch := hterms.epoch
  refine .reseeded rfl hroute ⟨hok.chainId, hok.adminPublicKey, hok.generation,
    hok.previous⟩ hfree (hadopt.trans (hpar.trans hN)) ⟨?_, ?_⟩
    (.of_steps hcomp (by simp [Move.ordinary]))
  · exact hnext.1.trans (by rw [hepoch])
  · exact hnext.2.trans (by rw [Chain.epochHash, hepoch]; rfl)

theorem Mutated.passage (h : Mutated R call a b) (hdel : b.store.deletion = none)
    (hs : Sound R.crypto a.ledger) : Passage R (some call) a b.ledger := by
  cases h with
  | still h => exact .ordinary (h.ledger ▸ .refl _)
  | enrolled _ h hst =>
      refine .ordinary (hst.ledger ▸ h.moves.ordinary fun m hm => ?_)
      simp only [List.cons_append, List.mem_cons, List.mem_append, List.mem_map] at hm
      obtain rfl | ⟨_, -, rfl⟩ | ⟨_, -, rfl⟩ := hm <;> rfl
  | rotated hroute h =>
      obtain ⟨M, M', entry, r, hc⟩ := h.committed
      obtain ⟨N, hN, hb⟩ := hc.split
      have hnext := (epochCheck_ok h.checked).bundle.succession.next rfl
      exact .rotated rfl hroute hN ⟨hnext.1, hnext.2⟩ hb
  | acknowledged _ h => exact .ordinary (h.moves.ordinary (by simp [Move.ordinary]))
  | snapshotted _ h => exact .ordinary (h.moves.ordinary (by simp [Move.ordinary]))
  | pruned hr _ h => exact .pruned rfl hr h rfl
  | reseeded hroute _ h => exact h.passage hroute hs
  | deleted _ hd _ _ => exact absurd (hdel.symm.trans hd) (by simp)

theorem Begun.course {v : Json} {c : Chain} (h : Begun R v c st.cell b)
    (hid : c.chainId = id) : Course R id cause st b.store := by
  obtain ⟨logId, tid, notice, hc⟩ := h.chain
  obtain ⟨M₀, M, M', M₁, entry, r, ms, hp, hcom, hms, hev⟩ := h.moves
  obtain ⟨N, hN, rfl⟩ := hcom.split
  have hpar : Ordinary R.crypto (st.ledger c) M₀ := .of_steps hp (by simp [Move.ordinary])
  have hepoch : N.chain.epoch = v.get "epoch" :=
    (hpar.trans hN).sameTerms.epoch.trans (by rw [hc]; rfl)
  have hsame : N.atEpoch (genesisCommit v).epoch = N := by
    rw [show (genesisCommit v).epoch = N.chain.epoch from hepoch.symm]
  rw [hsame] at hev
  refine .founded (c := c) h.absent h.stored (by rw [hc]; rfl) hid
    (hpar.trans (hN.trans (.of_steps hev fun m hm => ?_)))
  exact Move.ordinary_of_isEvidence (hms m hm)

theorem Imported.course {v : Json} (h : Imported R v st.cell mid b)
    (hid : s (terminalParameters v) "chain_id" = id) : Course R id cause st b.store := by
  rcases h.row with ⟨hsome, hstill⟩ | ⟨hnone, hstaged⟩
  · obtain ⟨c, hc⟩ := Option.isSome_iff_exists.mp hsome
    have hc' : b.store.chain = some c := by
      rw [hstill.chain, h.path.unsaved.chain]
      exact hc
    refine .passed hc hc' (.ordinary ?_)
    rw [Store.ledger_congr hstill.ledger]
    exact (h.path.staged c).2
  · obtain ⟨logId, tid, notice, hc⟩ := hstaged.chain
    refine .founded (c := b.chain) hnone hstaged.stored (by rw [hc]; rfl) (by rw [hc]; exact hid) ?_
    rw [show b.store.ledger b.chain = mid.store.ledger b.chain from hstaged.ledger]
    exact (h.path.staged b.chain).2

theorem Executed.course (h : Executed R call st.cell b) (hdel : b.store.deletion = none)
    (hid : call.chain = id) (hbound : call.Bound)
    (hgood : ∀ c, st.chain = some c → Sound R.crypto (st.ledger c)) :
    Course R id (some call) st b.store := by
  cases h with
  | begun hroute h =>
      obtain ⟨p, hp, hpid⟩ := hbound (.inl hroute)
      rw [hroute] at hp
      cases hp
      obtain ⟨logId, tid, notice, hc⟩ := h.chain
      exact h.course ((by rw [hc]; rfl : _ = s (call.value.get "parameters") "chain_id").trans
        (hpid.trans hid))
  | repeated _ h => exact h.course
  | imported hroute _ h =>
      obtain ⟨p, hp, hpid⟩ := hbound (.inr hroute)
      rw [hroute] at hp
      have hlast : terminalParameters call.value = p := by
        rw [terminalParameters, List.getLastD_eq_getLast?, show
          (a call.value "parameters_history").getLast? = some p from hp, Option.getD_some]
      exact h.course (hlast ▸ hpid.trans hid)
  | read _ _ h => exact h.course
  | mutated _ hadm h hs =>
      obtain ⟨c, hc, -⟩ := hadm.stored
      have hcell : st.cell = ⟨st, c⟩ := by rw [Store.cell, show st.chain = some c from hc]; rfl
      exact course_saved hc (h.passage (hs.deletion ▸ hdel) (hcell ▸ hgood c hc)) hs

theorem ItemMoved.ordinary {index : Nat} {r : Json} (h : ItemMoved R call index r a b) :
    Ordinary R.crypto a.ledger b.ledger := by
  cases h with
  | envelope _ _ hm => exact hm.ordinary (by simp [Move.ordinary])
  | repair _ _ hm => exact hm.ordinary (by simp [Move.ordinary])
  | part _ _ hm => exact hm.ordinary (by simp [Move.ordinary])
  | record _ _ _ _ _ hm => exact hm.ordinary (by simp [Move.ordinary])

/-- Expiry leaves the chain row alone. -/
theorem Steps.expire_chain {X : Crypto} {es : List Nat} {L L' : Ledger}
    (h : Steps X (es.map .expire) L L') : L'.chain = L.chain := by
  refine h.preserves (P := fun M => M.chain = L.chain) (C := fun m => ∃ e, m = .expire e)
    (fun m M M' ⟨e, he⟩ hs hM => ?_) (fun m hm => ?_) rfl
  · subst he
    cases hs with
    | expire _ _ _ hc => exact hc.trans hM
  · obtain ⟨e, -, rfl⟩ := List.mem_map.mp hm
    exact ⟨e, rfl⟩

theorem erase_still (hdel : st.deletion = none) : st.erase = st := by
  simp [Store.erase, Store.pending, hdel]

theorem finish_still {X : Crypto} {t : Nat} (h : st.finish X t = .ok st')
    (hdel : st'.deletion = none) : st' = st ∧ st.deletion = none := by
  unfold Store.finish at h
  split at h
  · rename_i hst
    exact ⟨(Except.ok.inj h).symm, hst⟩
  · rename_i d hst
    split at h
    · obtain ⟨proof, -, h⟩ := Check.bind_ok.mp h
      cases Check.pure_ok.mp h
      cases hdel
    · cases h
      exact absurd (hst.symm.trans hdel) (by simp)

/-- Every committed transaction on an undeleted chain is one of the passages
of its course; and a deletion is for good. -/
theorem Commit.course (h : Commit R cause st st')
    (hdel : st'.deletion = none) (hcause : ∀ call, cause = some call → call.chain = id ∧ call.Bound)
    (hgood : st.Holds (Settled R.crypto id)) : st.deletion = none ∧ Course R id cause st st' := by
  have hsound : st.deletion = none → ∀ c, st.chain = some c → Sound R.crypto (st.ledger c) :=
    fun hd c hc => by
      have hg := hgood hd
      rw [hc] at hg
      exact hg.sound
  cases h with
  | execute hd h =>
      obtain ⟨hid, hbound⟩ := hcause _ rfl
      exact ⟨hd, h.course hdel hid hbound (hsound hd)⟩
  | item hc hd _ h hs =>
      obtain ⟨c, hc⟩ := Option.isSome_iff_exists.mp hc
      exact ⟨hd, course_saved hc (.ordinary h.ordinary) hs⟩
  | evidence hc hms h hs =>
      obtain ⟨c, hc⟩ := Option.isSome_iff_exists.mp hc
      exact ⟨h.deletion.symm.trans (hs.deletion.symm.trans hdel),
        course_saved hc (.ordinary (h.ordinary fun m hm =>
          Move.ordinary_of_isEvidence (hms m hm))) hs⟩
  | enrollment hd h => exact ⟨hd, h.course⟩
  | expire hc h =>
      rename_i t b
      obtain ⟨c, hc⟩ := Option.isSome_iff_exists.mp hc
      have hcell : st.cell = ⟨st, c⟩ := by rw [Store.cell, hc, Option.getD_some]
      have hm := h.steps
      rw [hcell] at hm
      have hrow : b.chain = c := hm.expire_chain
      refine ⟨h.deletion.symm.trans hdel, .passed hc (h.chain.trans hc) ?_⟩
      rw [← hrow]
      exact .expired (hrow ▸ hm)
  | erase =>
      by_cases hd : st.deletion = none
      · rw [erase_still hd]
        exact ⟨hd, course_still rfl fun _ => rfl⟩
      · refine absurd ?_ hd
        rw [← hdel]
        unfold Store.erase
        split <;> rfl
  | finish h =>
      obtain ⟨rfl, hd⟩ := finish_still h hdel
      exact ⟨hd, course_still rfl fun _ => rfl⟩

end Courses

end PallaSync
