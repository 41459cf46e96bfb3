import PallaSync.Lib.Runs
import PallaSync.Lib.TokenBucket
import PallaSync.Sample

/-!
# Rate limits

A run of `rate` calls, whatever their scopes and identities: each row of the
table is a token bucket of its own, written by the accepted calls of its key.
-/

namespace PallaSync

open Machine TokenBucket

/-- A call of `rate`, with its clock reading. -/
structure RateCall where
  scope : RateScope
  identity : String
  time : Nat

/-- The bucket a call is about. -/
abbrev RateCall.key (call : RateCall) : RateScope × String := (call.scope, call.identity)

/-- The table after a call: a refused one leaves it as it is. -/
def rateStep (cfg : RelayConfig) (rates : Rates) (call : RateCall) : Rates :=
  match rate cfg rates call.scope call.identity call.time with
  | .ok rates' => rates'
  | .error _ => rates

/-- The call, when it is accepted. -/
def rateAccepted (cfg : RelayConfig) (rates : Rates) (call : RateCall) : Option RateCall :=
  if (rate cfg rates call.scope call.identity call.time).isOk then some call else none

/-- The calls of one bucket in a window of time. -/
def RateCall.within (scope : RateScope) (identity : String) (start stop : Nat)
    (call : RateCall) : Bool :=
  decide (call.scope = scope) && call.identity == identity && decide (start ≤ call.time) &&
    decide (call.time ≤ stop)

/-- The accepted calls of a run of calls, in order. -/
def acceptedCalls (cfg : RelayConfig) (rates : Rates) (calls : List RateCall) : List RateCall :=
  observe (rateStep cfg) (rateAccepted cfg) rates calls

/-- A row of the table, as a bucket. -/
def RateRow.kept (row : RateRow) : Kept Rat := ⟨row.tokens, row.updatedAtMs⟩

section Calls

variable {cfg : RelayConfig} {rates rates' : Rates} {call : RateCall} {calls : List RateCall}
  {scope : RateScope} {identity : String} {t start stop : Nat} {e : ApiError}

theorem tokensAt_available (p : RatePolicy) (row : Option RateRow) (t : Nat) :
    tokensAt p row t = available p.refill (p.burst : Rat) (row.map RateRow.kept) t := by
  cases row <;> rfl

theorem RatePolicy.refill_pos (p : RatePolicy) : 0 < p.refill := by
  have hpos : (0 : Rat) < p.requestsPerMinute := by exact_mod_cast p.positive.1
  exact div_pos hpos (by norm_num)

theorem RatePolicy.one_le_burst (p : RatePolicy) : (1 : Rat) ≤ p.burst := by
  exact_mod_cast p.positive.2

/-- An accepted call takes a token, and writes the row of its key only. -/
theorem rate_ok (h : rate cfg rates scope identity t = .ok rates') :
    1 ≤ tokensAt (cfg.rateLimits scope) (rates.find? (scope, identity)) t ∧
      ∀ key, rates'.find? key = if key = (scope, identity) then
        some ⟨scope, identity,
          tokensAt (cfg.rateLimits scope) (rates.find? (scope, identity)) t - 1, t⟩
      else rates.find? key := by
  unfold rate at h
  dsimp only at h
  split at h
  · cases h
  · rename_i hone
    obtain rfl := Except.ok.inj h
    exact ⟨not_lt.mp hone, fun key => Table.find?_upsert _ _ _⟩

/-- A refused call says when to come back. -/
theorem rate_error (h : rate cfg rates scope identity t = .error e) :
    tokensAt (cfg.rateLimits scope) (rates.find? (scope, identity)) t < 1 ∧
      ∃ v, e.context = some v ∧ v.get "retry_after_ms" =
        .num ((1 - tokensAt (cfg.rateLimits scope) (rates.find? (scope, identity)) t) /
          (cfg.rateLimits scope).refill).ceil.toNat := by
  unfold rate at h
  dsimp only at h
  split at h
  · rename_i hlt
    obtain rfl := Except.error.inj h
    exact ⟨hlt, _, rfl, rfl⟩
  · cases h

/-- A call writes the row of its key, when it is accepted. -/
theorem rateStep_find? (cfg : RelayConfig) (rates : Rates) (call : RateCall)
    (key : RateScope × String) :
    ((rateStep cfg rates call).find? key = rates.find? key ∧
        (rateAccepted cfg rates call = some call → call.key ≠ key)) ∨
      call.key = key ∧ rateAccepted cfg rates call = some call ∧
        1 ≤ tokensAt (cfg.rateLimits call.scope) (rates.find? key) call.time ∧
        (rateStep cfg rates call).find? key = some ⟨call.scope, call.identity,
          tokensAt (cfg.rateLimits call.scope) (rates.find? key) call.time - 1, call.time⟩ := by
  unfold rateStep rateAccepted
  cases h : rate cfg rates call.scope call.identity call.time with
  | error e => exact .inl ⟨rfl, fun haccepted => by cases haccepted⟩
  | ok rates' =>
      obtain ⟨hone, hfind⟩ := rate_ok h
      by_cases hkey : key = call.key
      · subst hkey
        exact .inr ⟨rfl, rfl, hone, (hfind _).trans (if_pos rfl)⟩
      · exact .inl ⟨(hfind key).trans (if_neg hkey), fun _ => Ne.symm hkey⟩

theorem rateAccepted_some {c : RateCall} (h : rateAccepted cfg rates call = some c) :
    c = call := by
  unfold rateAccepted at h
  split at h
  · exact (Option.some.inj h).symm
  · cases h

/-- A refused call changes nothing. -/
theorem rateStep_refused (h : rateAccepted cfg rates call = none) :
    rateStep cfg rates call = rates := by
  unfold rateAccepted at h
  unfold rateStep
  split
  · rename_i rates' hok
    rw [hok] at h
    cases h
  · rfl

/-- The accepted calls of a bucket in a window, so far: what they took was
earned, and is within the bound. -/
structure Metered (cfg : RelayConfig) (scope : RateScope) (identity : String)
    (start stop time : Nat) (rates : Rates) (taken : Nat) : Prop where
  past : ∀ row, rates.find? (scope, identity) = some row → row.updatedAtMs ≤ time
  earned : Earned (cfg.rateLimits scope).refill ((cfg.rateLimits scope).burst : Rat) start
    ((rates.find? (scope, identity)).map RateRow.kept) taken
  bounded : (taken : Rat) ≤
    (cfg.rateLimits scope).burst + ((stop - start : Nat) : Rat) * (cfg.rateLimits scope).refill

theorem RateCall.within_iff : call.within scope identity start stop = true ↔
    call.key = (scope, identity) ∧ start ≤ call.time ∧ call.time ≤ stop := by
  simp only [RateCall.within, Bool.and_eq_true, decide_eq_true_eq, beq_iff_eq, Prod.mk.injEq,
    and_assoc]

theorem Metered.empty (cfg : RelayConfig) (scope : RateScope) (identity : String)
    (start stop : Nat) : Metered cfg scope identity start stop 0 .empty 0 := by
  have hgain : 0 ≤ ((stop - start : Nat) : Rat) * (cfg.rateLimits scope).refill :=
    mul_nonneg (Nat.cast_nonneg _) (cfg.rateLimits scope).refill_pos.le
  have hburst := (cfg.rateLimits scope).one_le_burst
  refine ⟨fun row hrow => (by cases hrow), .inl rfl, ?_⟩
  push_cast
  linarith

theorem Metered.step {taken time : Nat}
    (h : Metered cfg scope identity start stop time rates taken) (htime : time ≤ call.time) :
    Metered cfg scope identity start stop call.time (rateStep cfg rates call)
      (taken + (rateAccepted cfg rates call).toList.countP
        (·.within scope identity start stop)) := by
  have hpast : ∀ row, rates.find? (scope, identity) = some row → row.updatedAtMs ≤ call.time :=
    fun row hrow => (h.past row hrow).trans htime
  obtain ⟨hsame, hother⟩ | ⟨hkey, haccepted, hone, hrow⟩ :=
    rateStep_find? cfg rates call (scope, identity)
  · -- another bucket, or a refusal: none of the window
    have hnone : (rateAccepted cfg rates call).toList.countP
        (·.within scope identity start stop) = 0 := by
      refine List.countP_eq_zero.mpr fun c hc hwithin => ?_
      obtain rfl := rateAccepted_some (Option.mem_toList.mp hc)
      exact hother (Option.mem_toList.mp hc) (RateCall.within_iff.mp hwithin).1
    rw [hnone]
    exact ⟨fun row hrow => hpast row (hsame ▸ hrow), hsame ▸ h.earned, h.bounded⟩
  · obtain ⟨rfl, rfl⟩ := Prod.mk.inj hkey
    have hpast' : ∀ row, (rateStep cfg rates call).find? (call.scope, call.identity) = some row →
        row.updatedAtMs ≤ call.time := by
      intro row hnew
      obtain rfl := Option.some.inj (hrow.symm.trans hnew)
      exact le_refl _
    have hbucket : ((rateStep cfg rates call).find? (call.scope, call.identity)).map RateRow.kept =
        some ⟨available (cfg.rateLimits call.scope).refill ((cfg.rateLimits call.scope).burst : Rat)
          ((rates.find? (call.scope, call.identity)).map RateRow.kept) call.time - 1,
          call.time⟩ := by
      rw [hrow, ← tokensAt_available]
      rfl
    rw [tokensAt_available] at hone
    rw [haccepted, Option.toList_some, List.countP_singleton]
    by_cases hstart : start ≤ call.time
    · have hearned := h.earned.take (cfg.rateLimits call.scope).refill_pos.le hstart
        (fun last hlast => ?_) hone
      · rw [← hbucket] at hearned
        by_cases hstop : call.time ≤ stop
        · rw [if_pos (RateCall.within_iff.mpr ⟨rfl, hstart, hstop⟩)]
          refine ⟨hpast', hearned, hearned.le (cfg.rateLimits call.scope).refill_pos.le
            (zero_le_one.trans (cfg.rateLimits call.scope).one_le_burst) fun last hlast _ => ?_⟩
          rw [hbucket] at hlast
          obtain rfl := Option.some.inj hlast
          exact hstop
        · rw [if_neg fun hwithin => hstop (RateCall.within_iff.mp hwithin).2.2]
          exact ⟨hpast', hearned.mono (Nat.le_succ _), h.bounded⟩
      · obtain ⟨row, hfind, rfl⟩ := Option.map_eq_some_iff.mp hlast
        exact hpast row hfind
    · -- before the window nothing was counted yet
      have hnone : taken = 0 := by
        obtain hzero | ⟨last, hlast, -, hfrom, -⟩ := h.earned
        · exact hzero
        · obtain ⟨row, hfind, rfl⟩ := Option.map_eq_some_iff.mp hlast
          have hto : row.updatedAtMs ≤ call.time := hpast row hfind
          exact absurd (hfrom.trans hto) hstart
      rw [if_neg fun hwithin => hstart (RateCall.within_iff.mp hwithin).2.1]
      exact ⟨hpast', .inl hnone, h.bounded⟩

/-- The calls of a run leave each bucket metered. -/
theorem Metered.run {taken time : Nat}
    (h : Metered cfg scope identity start stop time rates taken)
    (hclock : (time :: calls.map RateCall.time).Pairwise (· ≤ ·)) :
    ∃ time', Metered cfg scope identity start stop time' (Machine.run (rateStep cfg) rates calls)
      (taken + (acceptedCalls cfg rates calls).countP (·.within scope identity start stop)) := by
  induction calls generalizing rates taken time with
  | nil => exact ⟨time, h⟩
  | cons call calls ih =>
      obtain ⟨hfirst, hrest⟩ := List.pairwise_cons.mp hclock
      have hnext := h.step (hfirst call.time (by simp))
      obtain ⟨time', hdone⟩ := ih hnext hrest
      refine ⟨time', ?_⟩
      rw [acceptedCalls, observe, List.countP_append, ← Nat.add_assoc]
      exact hdone

/-- The rows of a run are not ahead of its clock. -/
theorem rates_past (hclock : (calls.map RateCall.time).Pairwise (· ≤ ·))
    (hbefore : ∀ call ∈ calls, call.time ≤ t) (key : RateScope × String) (row : RateRow)
    (hrow : (Machine.run (rateStep cfg) .empty calls).find? key = some row) :
    row.updatedAtMs ≤ t := by
  induction calls using List.reverseRecOn with
  | nil => cases hrow
  | append_singleton calls call ih =>
      have hcalls : ∀ call ∈ calls, call.time ≤ t := fun c hc =>
        hbefore c (List.mem_append_left _ hc)
      rw [List.map_append] at hclock
      rw [run_snoc] at hrow
      obtain ⟨hsame, -⟩ | ⟨-, -, -, hnew⟩ := rateStep_find? cfg _ call key
      · exact ih (List.pairwise_append.mp hclock).1 hcalls (hsame ▸ hrow)
      · obtain rfl := Option.some.inj (hnew.symm.trans hrow)
        exact hbefore call (by simp)

/-- A bucket none of whose calls is accepted stays as it is. -/
theorem run_find?_same {key : RateScope × String}
    (hnone : ∀ call ∈ acceptedCalls cfg rates calls, call.key ≠ key) :
    (Machine.run (rateStep cfg) rates calls).find? key = rates.find? key := by
  induction calls generalizing rates with
  | nil => rfl
  | cons call calls ih =>
      rw [acceptedCalls, observe] at hnone
      rw [run_cons, ih fun c hc => hnone c (List.mem_append_right _ hc)]
      obtain ⟨hsame, -⟩ | ⟨hkey, haccepted, -, -⟩ := rateStep_find? cfg rates call key
      · exact hsame
      · exact absurd hkey (hnone call (by simp [haccepted]))

/-- A refused bucket has a token after the wait it was told. -/
theorem rate_after_wait (hpast : ∀ row, rates.find? (scope, identity) = some row →
      row.updatedAtMs ≤ t) (hsame : rates'.find? (scope, identity) = rates.find? (scope, identity))
    {v : Json} {k : Nat} (h : rate cfg rates scope identity t = .error e)
    (hv : e.context = some v) (hk : v.get "retry_after_ms" = .num k) :
    (rate cfg rates' scope identity (t + k)).isOk := by
  obtain ⟨hlt, v', hv', hwait⟩ := rate_error h
  obtain rfl := Option.some.inj (hv.symm.trans hv')
  obtain rfl := Json.num.inj (hk.symm.trans hwait)
  have hone : 1 ≤ tokensAt (cfg.rateLimits scope) (rates'.find? (scope, identity)) (t +
      ((1 - tokensAt (cfg.rateLimits scope) (rates.find? (scope, identity)) t) /
        (cfg.rateLimits scope).refill).ceil.toNat) := by
    rw [hsame, tokensAt_available, tokensAt_available]
    refine one_le_available (cfg.rateLimits scope).refill_pos
      (cfg.rateLimits scope).one_le_burst (fun last hlast => ?_) ?_
    · obtain ⟨row, hfind, rfl⟩ := Option.map_eq_some_iff.mp hlast
      exact hpast row hfind
    · rw [← tokensAt_available]
      refine (Rat.le_ceil).trans ?_
      exact_mod_cast Int.self_le_toNat _
  unfold rate
  dsimp only
  rw [if_neg (not_lt.mpr hone)]
  rfl

end Calls

/-- In every run of calls under a clock that does not go back: the accepted
calls of a bucket within a window are no more than its burst and its refill in
the length of the window; a refused call changes no bucket; and a call that
comes after the wait it was told, none of its bucket having been accepted
meanwhile, is accepted. -/
theorem rate_bound (cfg : RelayConfig) (calls : List RateCall) (scope : RateScope)
    (identity : String) (hclock : (calls.map RateCall.time).Pairwise (· ≤ ·)) :
    (∀ start stop, start ≤ stop →
      (((acceptedCalls cfg .empty calls).countP (·.within scope identity start stop) : Nat) : Rat) ≤
        (cfg.rateLimits scope).burst +
          ((stop : Rat) - start) * (cfg.rateLimits scope).requestsPerMinute / 60000) ∧
    (∀ call, rateAccepted cfg (run (rateStep cfg) .empty calls) call = none →
      rateStep cfg (run (rateStep cfg) .empty calls) call = run (rateStep cfg) .empty calls) ∧
    ∀ t e v k more, (∀ call ∈ calls, call.time ≤ t) →
      rate cfg (run (rateStep cfg) .empty calls) scope identity t = .error e →
      e.context = some v → v.get "retry_after_ms" = .num k →
      (∀ call ∈ acceptedCalls cfg (run (rateStep cfg) .empty calls) more,
        call.key ≠ (scope, identity)) →
      (rate cfg (run (rateStep cfg) .empty (calls ++ more)) scope identity (t + k)).isOk := by
  refine ⟨fun start stop hle => ?_, fun call hnone => ?_,
    fun t e v k more hbefore h hv hk hmore => ?_⟩
  · have hclock' : (0 :: calls.map RateCall.time).Pairwise (· ≤ ·) :=
      List.pairwise_cons.mpr ⟨fun _ _ => Nat.zero_le _, hclock⟩
    obtain ⟨time, hmetered⟩ := (Metered.empty cfg scope identity start stop).run hclock'
    have hbound := hmetered.bounded
    rw [Nat.zero_add, Nat.cast_sub hle, RatePolicy.refill, ← mul_div_assoc] at hbound
    exact hbound
  · exact rateStep_refused hnone
  · rw [run_append]
    exact rate_after_wait (fun row hrow => rates_past hclock hbefore _ row hrow)
      (run_find?_same hmore) h hv hk

namespace Sample

/-- As many calls at once as the burst. -/
def burstCalls : List RateCall := List.replicate 30 ⟨.authorizedSigner, "a", 7⟩

/-- The wait a refused call is told. -/
def toldWait (r : Except ApiError Rates) : Option Json :=
  match r with
  | .ok _ => none
  | .error e => e.context.map (·.get "retry_after_ms")

theorem burstCalls_refused : ∃ e v, rate cfg (run (rateStep cfg) .empty burstCalls)
    .authorizedSigner "a" 7 = .error e ∧ e.context = some v ∧
      v.get "retry_after_ms" = .num 500 := by
  have htold : toldWait (rate cfg (run (rateStep cfg) .empty burstCalls) .authorizedSigner "a" 7) =
      some (.num 500) := by
    decide +kernel
  unfold toldWait at htold
  split at htold
  · cases htold
  · rename_i e he
    obtain ⟨v, hv, hk⟩ := Option.map_eq_some_iff.mp htold
    exact ⟨e, v, he, hv, hk⟩

end Sample

/-- The burst is accepted, the next call is refused, and accepted after its wait. -/
theorem rate_bound_burst :
    (((acceptedCalls Sample.cfg .empty Sample.burstCalls).countP
      (·.within .authorizedSigner "a" 7 7) : Nat) : Rat) ≤
        30 + ((7 : Nat) - (7 : Nat)) * 120 / 60000 ∧
    (rate Sample.cfg (run (rateStep Sample.cfg) .empty (Sample.burstCalls ++ []))
      .authorizedSigner "a" (7 + 500)).isOk := by
  obtain ⟨e, v, hrefused, hv, hk⟩ := Sample.burstCalls_refused
  have hbound := rate_bound Sample.cfg Sample.burstCalls .authorizedSigner "a" (by decide)
  refine ⟨hbound.1 7 7 (le_refl _), hbound.2.2 7 e v 500 [] (by decide) hrefused hv hk ?_⟩
  exact fun call hcall => by cases hcall

end PallaSync
