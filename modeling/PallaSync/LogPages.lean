import PallaSync.Pages

/-!
# The log, page by page

Four limits end a page of the log: the number of rows the statement returns,
the bytes it returns, the limit of the request, and the bytes of the answer.
Each of them only ends a prefix of the rows after the position of the page
(`scanLog_ok`), and these are the positions of a log without gap, so a page is
the matching part of an interval of positions (`LogAnswer`). The pinned cut and
the permanence of entries make the intervals of consecutive pages fit together
(`log_pages`).
-/

namespace PallaSync

open Atomic Machine

/-! ## Rows and entries -/

/-- The stored entries of a log at the positions after `start` up to `last`. -/
def Store.entries (st : Store) (logId : String) (start last : Nat) : List LogEntry :=
  (List.range' (start + 1) (last - start)).filterMap (st.logEntry logId)

/-- What a read of these positions shows: the entries on the route, under the
collection filter. -/
def Store.matching (st : Store) (logId : String) (route : Route) (tag : Option String)
    (epoch : Option Nat) (start last : Nat) : List Json :=
  ((st.entries logId start last).filter (·.included route tag epoch)).map LogEntry.toJson

/-- No position after `start` up to `last` has lost its entry. -/
def Store.Kept (st : Store) (logId : String) (start last : Nat) : Prop :=
  ∀ i, start < i → i ≤ last → (st.logEntry logId i).isSome

section Intervals

variable {st st' : Store} {l : String} {route : Route} {tag : Option String} {epoch : Option Nat}
  {i j k : Nat}

theorem range_split (hij : i ≤ j) (hjk : j ≤ k) : List.range' (i + 1) (k - i) =
    List.range' (i + 1) (j - i) ++ List.range' (j + 1) (k - j) := by
  have hlen : k - i = (j - i) + (k - j) := by omega
  have hstart : j + 1 = i + 1 + (j - i) := by omega
  rw [hlen, hstart, List.range'_append_1]

theorem Store.entries_append (hij : i ≤ j) (hjk : j ≤ k) :
    st.entries l i k = st.entries l i j ++ st.entries l j k := by
  rw [Store.entries, range_split hij hjk, List.filterMap_append]
  rfl

theorem Store.matching_append (hij : i ≤ j) (hjk : j ≤ k) :
    st.matching l route tag epoch i k =
      st.matching l route tag epoch i j ++ st.matching l route tag epoch j k := by
  simp only [Store.matching, Store.entries_append hij hjk, List.filter_append, List.map_append]

theorem Store.entries_congr (h : ∀ x, i < x → x ≤ j → st'.logEntry l x = st.logEntry l x) :
    st'.entries l i j = st.entries l i j := by
  unfold Store.entries
  refine List.filterMap_congr fun x hx => ?_
  obtain ⟨hlow, hhigh⟩ := List.mem_range'_1.mp hx
  exact h x (by omega) (by omega)

theorem Store.Kept.append (h : st.Kept l i j) (h' : st.Kept l j k) : st.Kept l i k :=
  fun x hi hk => by
    by_cases hj : x ≤ j
    · exact h x hi hj
    · exact h' x (by omega) hk

end Intervals

/-! ## One page -/

/-- What the byte budget of the statement leaves: a prefix, not empty unless
there are no rows. -/
theorem boundedRows_ok {α : Type} {size : α → Nat} {bytes : Nat} {first : Bool}
    {rows rows' : List α}
    (h : boundedRows size bytes first rows = .ok rows') :
    rows' <+: rows ∧ (first = true → rows ≠ [] → rows' ≠ []) := by
  induction rows generalizing bytes first rows' with
  | nil =>
      obtain rfl := Except.ok.inj h
      exact ⟨List.prefix_refl _, fun _ hne => absurd rfl hne⟩
  | cons r rows ih =>
      unfold boundedRows at h
      split at h
      · split at h
        · cases h
        · rename_i hfirst
          obtain rfl := Except.ok.inj h
          exact ⟨List.nil_prefix, fun hf => absurd hf hfirst⟩
      · cases hrest : boundedRows size (bytes + size r) false rows with
        | error e => rw [hrest] at h; cases h
        | ok rest =>
            rw [hrest] at h
            obtain rfl := Except.ok.inj h
            obtain ⟨hfront, -⟩ := ih hrest
            exact ⟨(List.prefix_cons_inj r).mpr hfront, fun _ _ => List.cons_ne_nil _ _⟩

/-- The position of the last row, `position` before the first. -/
def lastSeq (rows : List LogRow) (position : Nat) : Nat :=
  (rows.getLast?.map (·.seq)).getD position

theorem lastSeq_cons (row : LogRow) (rows : List LogRow) (position : Nat) :
    lastSeq (row :: rows) position = lastSeq rows row.seq := by
  cases rows with
  | nil => rfl
  | cons next rows => simp [lastSeq, List.getLast?_cons]

/-- What a scan collects: the rows of a prefix, all with an entry, and the
position of the last one. It stops at the first row only for the limits. -/
structure Scanned (X : Crypto) (route : Route) (tag : Option String) (epoch : Option Nat)
    (limit count bytes : Nat) (rows taken : List LogRow) (position position' : Nat)
    (items : List Json) : Prop where
  cut : taken <+: rows
  shown : ∃ entries : List LogEntry, taken.map (·.entry) = entries.map some ∧
    items = (entries.filter (·.included route tag epoch)).map LogEntry.toJson
  reached : position' = lastSeq taken position
  within : items.length + count ≤ max count limit
  stops : taken = [] → ∀ row rest, rows = row :: rest → ∃ e, row.entry = some e ∧
    (limit ≤ count ∨ pageBytes < bytes + (Store.size X e.toJson + 1))

theorem scanLog_ok {X : Crypto} {c : Chain} {auth : Auth} {route : Route} {tag : Option String}
    {epoch : Option Nat} {limit count bytes : Nat} {rows : List LogRow} {position position' : Nat}
    {items : List Json}
    (h : scanLog X c auth route tag epoch limit rows position count bytes =
      .ok (position', items)) :
    ∃ taken, Scanned X route tag epoch limit count bytes rows taken position position' items := by
  induction rows generalizing position count bytes items with
  | nil =>
      obtain ⟨rfl, rfl⟩ := Prod.mk.inj (Except.ok.inj h)
      refine ⟨[], List.nil_prefix, ⟨[], rfl, rfl⟩, rfl, by simp, fun _ row rest hrows => ?_⟩
      cases hrows
  | cons row rows ih =>
      unfold scanLog at h
      split at h
      · cases h
      · rename_i e he
        dsimp only at h
        split at h
        · rename_i hout
          obtain ⟨taken, hs⟩ := ih h
          obtain ⟨entries, hentries, hitems⟩ := hs.shown
          refine ⟨row :: taken, (List.prefix_cons_inj row).mpr hs.cut, ⟨e :: entries, ?_, ?_⟩, ?_,
            hs.within, nofun⟩
          · rw [List.map_cons, List.map_cons, he, hentries]
          · rw [hitems, List.filter_cons_of_neg (by simpa using hout)]
          · rw [hs.reached, lastSeq_cons]
        · rename_i hin
          split at h
          · rename_i hfull
            obtain ⟨rfl, rfl⟩ := Prod.mk.inj (Except.ok.inj h)
            refine ⟨[], List.nil_prefix, ⟨[], rfl, rfl⟩, rfl, by simp, fun _ x rest hrows => ?_⟩
            obtain ⟨rfl, -⟩ := List.cons.inj hrows
            exact ⟨e, he, hfull⟩
          · rename_i hfull
            split at h
            · cases h
            · obtain ⟨⟨last, rest⟩, hrest, h⟩ := Check.bind_ok.mp h
              obtain ⟨rfl, rfl⟩ := Prod.mk.inj (Except.ok.inj h)
              obtain ⟨taken, hs⟩ := ih hrest
              obtain ⟨entries, hentries, hitems⟩ := hs.shown
              refine ⟨row :: taken, (List.prefix_cons_inj row).mpr hs.cut, ⟨e :: entries, ?_, ?_⟩,
                ?_, ?_, nofun⟩
              · rw [List.map_cons, List.map_cons, he, hentries]
              · rw [List.filter_cons_of_pos (by simpa using hin), List.map_cons, hitems]
              · rw [hs.reached, lastSeq_cons]
              · have hwithin := hs.within
                obtain ⟨hcount, -⟩ := not_or.mp hfull
                show rest.length + 1 + count ≤ max count limit
                omega

/-! ## The rows of a log without gap -/

section Rows

variable {X : Crypto} {st : Store} {c : Chain} {l : String} {start last : Nat}

theorem mem_logRows {row : LogRow} : row ∈ logRows st l start last ↔
    row ∈ st.log ∧ row.logId = l ∧ start < row.seq ∧ row.seq ≤ last := by
  rw [logRows, List.mem_insertionSort, Table.mem_select]
  simp

theorem logRows_sorted (st : Store) (l : String) (start last : Nat) :
    ((logRows st l start last).map (·.seq)).Pairwise (· < ·) := by
  have hle : (logRows st l start last).Pairwise fun x y => x.seq ≤ y.seq :=
    List.pairwise_insertionSort _ _
  have hkeys : ((logRows st l start last).map LogRow.key).Nodup :=
    ((List.perm_insertionSort _ _).map _).nodup_iff.mpr (Table.select_nodup st.log _)
  refine List.pairwise_map.mpr ((hle.and (List.pairwise_map.mp hkeys)).imp_of_mem ?_)
  rintro x y hx hy ⟨hxy, hne⟩
  refine lt_of_le_of_ne hxy fun he => hne ?_
  rw [LogRow.key, LogRow.key, he, (mem_logRows.mp hx).2.1, (mem_logRows.mp hy).2.1]

theorem logEntry_of_mem {row : LogRow} {e : LogEntry} (hmem : row ∈ st.log) (hl : row.logId = l)
    (he : row.entry = some e) : st.logEntry l row.seq = some e := by
  have hfind := Table.find?_of_mem hmem
  rw [LogRow.key, hl] at hfind
  rw [Store.logEntry, hfind, Option.bind_some, he]

/-- The rows of the current log are at consecutive positions. -/
theorem Sound.logRows_seq (h : Sound X (st.ledger c)) (start : Nat) (hlast : last ≤ c.headSeq) :
    (logRows st c.logId start last).map (·.seq) = List.range' (start + 1) (last - start) := by
  refine (logRows_sorted st _ start last).eq_of_mem_iff List.pairwise_lt_range' fun i => ?_
  rw [List.mem_map, List.mem_range'_1]
  constructor
  · rintro ⟨row, hrow, rfl⟩
    obtain ⟨-, -, hlow, hhigh⟩ := mem_logRows.mp hrow
    omega
  · rintro ⟨hlow, hhigh⟩
    obtain ⟨row, hrow⟩ := Option.isSome_iff_exists.mp
      ((h.log_dom i).mpr ⟨by omega, le_trans (by omega) hlast⟩)
    have hkey := Table.key_of_find? hrow
    obtain ⟨hl, hi⟩ := Prod.mk.inj hkey
    exact ⟨row, mem_logRows.mpr ⟨Table.mem_of_find? hrow, hl, by omega⟩, hi⟩

/-- A prefix of them, all with an entry, is an interval of kept positions. -/
theorem Sound.logRows_prefix (h : Sound X (st.ledger c)) (hlast : last ≤ c.headSeq)
    (hstart : start ≤ last) {taken : List LogRow} {entries : List LogEntry}
    (hcut : taken <+: logRows st c.logId start last)
    (hentries : taken.map (·.entry) = entries.map some) :
    lastSeq taken start = start + taken.length ∧ start + taken.length ≤ last ∧
      st.entries c.logId start (start + taken.length) = entries ∧
      st.Kept c.logId start (start + taken.length) := by
  have hseq : taken.map (·.seq) = List.range' (start + 1) taken.length := by
    have hfront := hcut.map (·.seq)
    rw [h.logRows_seq start hlast] at hfront
    have htake := List.prefix_iff_eq_take.mp hfront
    have hle := hfront.length_le
    rw [List.length_map, List.length_range'] at hle
    rw [htake, List.length_map, List.take_range'_of_length_ge hle]
  have hlen : taken.length ≤ last - start := by
    have hle := (hcut.map (·.seq)).length_le
    rwa [h.logRows_seq start hlast, List.length_map, List.length_range'] at hle
  have hmap : (List.range' (start + 1) taken.length).map (st.logEntry c.logId) =
      entries.map some := by
    rw [← hseq, List.map_map, ← hentries]
    refine List.map_congr_left fun row hrow => ?_
    obtain ⟨hmem, hl, -⟩ := mem_logRows.mp (hcut.subset hrow)
    have hfind := Table.find?_of_mem hmem
    rw [LogRow.key, hl] at hfind
    rw [Function.comp, Store.logEntry, hfind, Option.bind_some]
  refine ⟨?_, by omega, ?_, fun i hlow hhigh => ?_⟩
  · rw [lastSeq, ← List.getLast?_map, hseq, List.getLast?_range']
    split <;> simp_all
  · rw [Store.entries, Nat.add_sub_cancel_left]
    have hid : (List.range' (start + 1) taken.length).filterMap (st.logEntry c.logId) =
        ((List.range' (start + 1) taken.length).map (st.logEntry c.logId)).filterMap id := by
      rw [List.filterMap_map]
      rfl
    rw [hid, hmap, List.filterMap_map]
    exact List.filterMap_some
  · have hmem : st.logEntry c.logId i ∈ entries.map some := by
      rw [← hmap]
      exact List.mem_map.mpr ⟨i, List.mem_range'_1.mpr (by omega), rfl⟩
    obtain ⟨e, -, he⟩ := List.mem_map.mp hmem
    rw [← he]
    rfl

end Rows

/-! ## One page -/

/-- The collection filter of a query. -/
structure Filtered (q : Query) (tag : Option String) (epoch : Option Nat) : Prop where
  tag : query q "collection_tag" = tag
  epoch : decimalQuery q "epoch" 0 4294967295 = .ok epoch

/-- How a cursor repeats the collection filter. -/
def logBinding (tag : Option String) (epoch : Option Nat) : Json :=
  .obj [("collection_tag", Json.ofOption tag), ("epoch", Json.ofOptionNat epoch)]

/-- The position an answer was scanned through. -/
def scanned (v : Json) : Nat := n v "scan_through_seq"

/-- None of the stored entries is larger than the bytes of an answer. -/
def Store.Fits (X : Crypto) (st : Store) (logId : String) (start last : Nat) : Prop :=
  ∀ i, start < i → i ≤ last → ∀ e, st.logEntry logId i = some e →
    Store.size X e.toJson + 1 ≤ pageBytes

/-- The answer of a page that was opened as `p`: the matching entries of an
interval after its position, none of whose entries is gone. -/
structure LogAnswer (X : Crypto) (st : Store) (route : Route) (tag : Option String)
    (epoch : Option Nat) (p : Page) (v : Json) : Prop where
  pinned : v.get "log_id" = .str p.cut.logId ∧ v.get "head_seq" = .num p.cut.headSeq ∧
    v.get "head_hash" = .str p.cut.headHash
  more : v.get "has_more" = .bool (decide (scanned v < p.cut.headSeq))
  range : p.position ≤ scanned v ∧ scanned v ≤ p.cut.headSeq
  kept : st.Kept p.cut.logId p.position (scanned v)
  items : a v "items" = st.matching p.cut.logId route tag epoch p.position (scanned v)
  limit : (a v "items").length ≤ p.limit
  progress : st.Fits X p.cut.logId p.position p.cut.headSeq → p.position < p.cut.headSeq →
    p.position < scanned v

section Answers

variable {R : Relay} {auth : Auth} {route : Route} {q : Query} {v : Json} {u u' : Work}
  {tag tag' : Option String} {epoch epoch' : Option Nat}

theorem logBinding_inj (h : logBinding tag epoch = logBinding tag' epoch') :
    tag = tag' ∧ epoch = epoch' := by
  simp only [logBinding, Json.obj.injEq, List.cons.injEq, Prod.mk.injEq, true_and, and_true] at h
  refine ⟨?_, ?_⟩
  · cases tag <;> cases tag' <;> simp_all [Json.ofOption]
  · cases epoch <;> cases epoch' <;> simp_all [Json.ofOptionNat]

theorem log_ok (h : log R auth route q u = .ok (v, u')) :
    ∃ p tag epoch position items rows more,
      Filtered q tag epoch ∧ p.filters = logBinding tag epoch ∧
      Turned R route q v u u' p { p with position } more ∧
      more = decide (position < p.cut.headSeq) ∧
      Finished { p with position } items more true v ∧
      rows <+: logRows u.cell.store u.cell.chain.logId p.position p.cut.headSeq ∧
      (logRows u.cell.store u.cell.chain.logId p.position p.cut.headSeq ≠ [] → rows ≠ []) ∧
      scanLog R.crypto u.cell.chain auth route tag epoch p.limit rows p.position 0 0 =
        .ok (position, items) := by
  simp only [log, bind_ok, lift_ok, chain_ok, failIf_ok] at h
  obtain ⟨_, _, ⟨-, rfl⟩, c, _, ⟨rfl, rfl⟩, _, _, ⟨-, rfl⟩, _, _, ⟨-, rfl⟩, epoch, _, ⟨hepoch, rfl⟩,
    p, u₁, hpage, _, _, ⟨-, rfl⟩, rows₀, _, hrows₀, rows, _, ⟨hrows, rfl⟩, ⟨position, items⟩, _,
    ⟨hscan, rfl⟩, h⟩ := h
  obtain ⟨rfl, rfl⟩ := look_ok.mp hrows₀
  obtain ⟨hcell, -, hfilters, -⟩ := page_opened hpage
  obtain ⟨hnext, hfinished⟩ := finish_ok h
  obtain ⟨hfront, hnonempty⟩ := boundedRows_ok hrows
  refine ⟨p, _, epoch, position, items, rows, _, ⟨rfl, hepoch⟩, hfilters,
    ⟨⟨u₁, hfilters ▸ hpage⟩, ⟨rfl, rfl, rfl⟩, ⟨u₁, hcell, hnext⟩⟩, rfl, hfinished, ?_, ?_, hscan⟩
  · exact hfront.trans (hcell ▸ List.take_prefix _ _)
  · refine fun hne => hnonempty rfl ?_
    rw [hcell]
    cases hrows : logRows u.cell.store u.cell.chain.logId p.position p.cut.headSeq with
    | nil => exact absurd hrows hne
    | cons row rest => simp

/-- A page whose position is in the pinned part of the log. -/
structure Page.InLog (p : Page) (c : Chain) : Prop where
  logId : p.cut.logId = c.logId
  headSeq : p.cut.headSeq ≤ c.headSeq
  position : p.position ≤ p.cut.headSeq

/-- The answer of one page. -/
theorem log_answers {c : Chain} (h : log R auth route q u = .ok (v, u'))
    (hchain : u.cell.chain = c) (hsound : Sound R.crypto (u.cell.store.ledger c)) :
    ∃ p tag epoch more, Filtered q tag epoch ∧ p.filters = logBinding tag epoch ∧
      Turned R route q v u u' p { p with position := scanned v } more ∧
      more = decide (scanned v < p.cut.headSeq) ∧
      (p.InLog c → LogAnswer R.crypto u.cell.store route tag epoch p v) := by
  obtain ⟨p, tag, epoch, position, items, rows, more, hfiltered, hfilters, hturned, hmore,
    hfinished, hrows, hnonempty, hscan⟩ := log_ok h
  obtain ⟨hhash, hscanned⟩ := hfinished.scanned rfl
  have hposition : scanned v = position := by
    rw [scanned, n, hscanned]
    rfl
  have hitems : a v "items" = items := by
    rw [a, hfinished.items]
    rfl
  rw [← hposition] at hturned hmore hscan
  refine ⟨p, tag, epoch, more, hfiltered, hfilters, hturned, hmore, fun hin => ?_⟩
  obtain ⟨taken, hs⟩ := scanLog_ok hscan
  obtain ⟨entries, hentries, hshown⟩ := hs.shown
  rw [hchain, ← hin.logId] at hrows hnonempty
  have hcut := hs.cut.trans hrows
  have hfront := hsound.logRows_prefix hin.headSeq hin.position (hin.logId ▸ hcut) hentries
  rw [← hin.logId, ← hs.reached] at hfront
  obtain ⟨hlast, hle, hstored, hkept⟩ := hfront
  rw [← hlast] at hle hstored hkept
  refine ⟨⟨hfinished.logId, hfinished.headSeq, hhash⟩, hmore ▸ hfinished.more, ⟨by omega, hle⟩,
    hkept, ?_, ?_, fun hfits hlt => ?_⟩
  · rw [hitems, hshown, Store.matching, hstored]
  · have hwithin := hs.within
    rw [hitems]
    omega
  · by_contra hstuck
    have htaken : taken = [] := List.length_eq_zero_iff.mp (by omega)
    have hthere : logRows u.cell.store p.cut.logId p.position p.cut.headSeq ≠ [] := fun hnil => by
      have hseq := hsound.logRows_seq p.position hin.headSeq
      rw [← hin.logId, hnil] at hseq
      have hlen := congrArg List.length hseq
      rw [List.map_nil, List.length_range', List.length_nil] at hlen
      omega
    obtain ⟨row, rest, hrow⟩ := List.exists_cons_of_ne_nil (hnonempty hthere)
    obtain ⟨e, he, hfull⟩ := hs.stops htaken row rest hrow
    obtain ⟨hmem, hl, hlow, hhigh⟩ :=
      mem_logRows.mp (hrows.subset (hrow ▸ List.mem_cons_self))
    have hlimit := hturned.limited.positive
    have hfit := hfits row.seq hlow hhigh e (logEntry_of_mem hmem hl he)
    omega

end Answers

/-! ## The store of a later page -/

section Later

variable {X : Crypto} {st st' : Store} {c c' : Chain} {route : Route} {tag : Option String}
  {epoch : Option Nat} {i j : Nat}

/-- While the log is the same it does not get shorter. -/
theorem Earlier.headSeq_le (h : Earlier (st.ledger c) (st'.ledger c')) (hs : Sound X (st.ledger c))
    (hs' : Sound X (st'.ledger c')) (hl : c'.logId = c.logId) : c.headSeq ≤ c'.headSeq := by
  by_cases h0 : c.headSeq = 0
  · omega
  · obtain ⟨row, hrow⟩ := Option.isSome_iff_exists.mp
      ((hs.log_dom c.headSeq).mpr ⟨by omega, le_refl _⟩)
    obtain ⟨row', hrow', -⟩ := h.grows.log _ row hrow
    rw [Store.ledger_chain, ← hl] at hrow'
    exact ((hs'.log_dom c.headSeq).mp (Option.isSome_iff_exists.mpr ⟨row', hrow'⟩)).2

/-- An entry that is there later was there before. -/
theorem Earlier.logEntry_before (h : Earlier (st.ledger c) (st'.ledger c'))
    (hs : Sound X (st.ledger c)) (hi : 1 ≤ i ∧ i ≤ c.headSeq) {e : LogEntry}
    (he : st'.logEntry c.logId i = some e) : st.logEntry c.logId i = some e := by
  obtain ⟨row, hrow⟩ := Option.isSome_iff_exists.mp ((hs.log_dom i).mpr hi)
  obtain ⟨row', hrow', hlater⟩ := h.grows.log _ row hrow
  rw [Store.ledger_chain, Store.ledger_log] at hrow hrow'
  rw [Store.logEntry, hrow', Option.bind_some] at he
  rw [Store.logEntry, hrow, Option.bind_some]
  rcases hlater.entry with hsame | ⟨hnone, -⟩
  · exact hsame ▸ he
  · rw [hnone] at he
    cases he

theorem Earlier.kept_before (h : Earlier (st.ledger c) (st'.ledger c')) (hs : Sound X (st.ledger c))
    (hj : j ≤ c.headSeq) (hkept : st'.Kept c.logId i j) : st.Kept c.logId i j :=
  fun x hlow hhigh => by
    obtain ⟨e, he⟩ := Option.isSome_iff_exists.mp (hkept x hlow hhigh)
    exact Option.isSome_iff_exists.mpr ⟨e, h.logEntry_before hs (by omega) he⟩

theorem Earlier.matching_eq (h : Earlier (st.ledger c) (st'.ledger c')) (hs : Sound X (st.ledger c))
    (hj : j ≤ c.headSeq) (hkept : st'.Kept c.logId i j) :
    st'.matching c.logId route tag epoch i j = st.matching c.logId route tag epoch i j := by
  rw [Store.matching, Store.matching, Store.entries_congr fun x hlow hhigh => ?_]
  obtain ⟨e, he⟩ := Option.isSome_iff_exists.mp (hkept x hlow hhigh)
  rw [he, h.logEntry_before hs (by omega) he]

theorem Earlier.fits (h : Earlier (st.ledger c) (st'.ledger c')) (hs : Sound X (st.ledger c))
    (hj : j ≤ c.headSeq) (hfits : st.Fits X c.logId i j) : st'.Fits X c.logId i j :=
  fun x hlow hhigh _ he => hfits x hlow hhigh _ (h.logEntry_before hs (by omega) he)

/-- An entry names its position. -/
theorem Sound.entry_seq (h : Sound X (st.ledger c)) {l : String} {e : LogEntry}
    (he : st.logEntry l i = some e) : e.relaySeq = i := by
  obtain ⟨row, hrow, hentry⟩ := Option.bind_eq_some_iff.mp he
  obtain ⟨rr, hrr, hl, hi⟩ := h.logged l i row hrow
  obtain ⟨⟨row', hrow', -, hok, -⟩, -⟩ := (h.receipts rr hrr).position i hi
  rw [hl] at hrow'
  obtain rfl := Option.some.inj (hrow'.symm.trans hrow)
  exact Option.some.inj ((hok e hentry).relaySeq.symm.trans hi)

/-- One entry stands for each kept position. -/
theorem Sound.entries_seq (h : Sound X (st.ledger c)) {l : String} (hkept : st.Kept l i j) :
    (st.entries l i j).map (·.relaySeq) = List.range' (i + 1) (j - i) := by
  unfold Store.entries
  rw [List.map_filterMap]
  have hmap : ∀ x ∈ List.range' (i + 1) (j - i),
      (st.logEntry l x).map (·.relaySeq) = some x := fun x hx => by
    obtain ⟨hlow, hhigh⟩ := List.mem_range'_1.mp hx
    obtain ⟨e, he⟩ := Option.isSome_iff_exists.mp (hkept x (by omega) (by omega))
    rw [he, Option.map_some, h.entry_seq he]
  rw [List.filterMap_congr hmap, List.filterMap_some]

end Later

/-! ## All pages -/

/-- The position the last of the pages was scanned through. -/
def lastScanned (pages : List (Call × Json)) : Nat :=
  (pages.getLast?.map (scanned ·.2)).getD 0

theorem lastScanned_cons (x y : Call × Json) (pages : List (Call × Json)) :
    lastScanned (x :: y :: pages) = lastScanned (y :: pages) := by
  simp [lastScanned, List.getLast?_cons_cons]

/-- Pages that list the matching entries of the log of `c` after `start`. -/
structure LogListing (X : Crypto) (cfg : RelayConfig) (st : Store) (c : Chain) (route : Route)
    (tag : Option String) (epoch : Option Nat) (start : Nat) (pages : List (Call × Json)) :
    Prop where
  /-- Every page shows the cut of the first one. -/
  pinned : ∀ x ∈ pages, x.2.get "log_id" = .str c.logId ∧ x.2.get "head_seq" = .num c.headSeq ∧
    x.2.get "head_hash" = .str c.headHash
  /-- There is more, and a cursor, exactly below the pinned head. -/
  more : ∀ x ∈ pages, x.2.get "has_more" = .bool (decide (scanned x.2 < c.headSeq)) ∧
    (x.2.get "next_cursor" = .null ↔ scanned x.2 = c.headSeq)
  range : start ≤ lastScanned pages ∧ ∀ x ∈ pages, scanned x.2 ≤ c.headSeq
  /-- The items are the matching entries that were scanned, none of which is gone. -/
  items : pages.flatMap (a ·.2 "items") =
    st.matching c.logId route tag epoch start (lastScanned pages)
  kept : st.Kept c.logId start (lastScanned pages)
  limit : ∀ x ∈ pages, ∃ limit, Limited cfg.limits x.1.query limit ∧
    (a x.2 "items").length ≤ limit
  size : ∀ x ∈ pages, Store.size X x.2 ≤ responseMax
  /-- Each page goes on, unless an entry is larger than an answer. -/
  increasing : st.Fits X c.logId start c.headSeq → (pages.map (scanned ·.2)).Pairwise (· < ·) ∧
    (start < c.headSeq → ∀ x ∈ pages, start < scanned x.2)

section Pages

variable {X : Crypto} {cfg : RelayConfig} {id : String} {es fs : List Event} {ev : Event}
  {call : Call} {v : Json} {pages : List (Call × Json)}

/-- A page of the log that the run answers, with what it was opened as. -/
structure LogPage (X : Crypto) (cfg : RelayConfig) (id : String) (es : List Event) (ev : Event)
    (call : Call) (v : Json) (c : Chain) (u u' : Work) (p : Page) (tag : Option String)
    (epoch : Option Nat) : Prop where
  ran : ∃ m, Ran X (World.after X cfg es) id ev c m v u u'
  turned : Turned ((World.after X cfg es).relay X) call.route call.query v u u' p
    { p with position := scanned v } (decide (scanned v < p.cut.headSeq))
  filtered : Filtered call.query tag epoch
  filters : p.filters = logBinding tag epoch
  answer : p.InLog c → LogAnswer X u.cell.store call.route tag epoch p v
  size : Store.size X v ≤ responseMax

/-- The routes of the log. -/
def Route.ofLog : Route → Bool
  | .log | .recordsGet => true
  | _ => false

theorem Replied.logPage (h : Replied X (World.after X cfg es) id ev call v)
    (hroute : call.route.ofLog = true) :
    ∃ c u u' p tag epoch, LogPage X cfg id es ev call v c u u' p tag epoch := by
  have hplain : call.route.plain = true := by
    revert hroute
    cases call.route <;> decide
  obtain ⟨body, c, u, u', hran⟩ := h.ran hplain
  have hread : log ((World.after X cfg es).relay X) call.auth call.route call.query u =
      .ok (v, u') := by
    have hrun := hran.run
    unfold readRoute at hrun
    dsimp only at hrun
    generalize call.route = route at hroute hrun ⊢
    cases route <;> first | exact hrun | cases hroute
  obtain ⟨p, tag, epoch, more, hfiltered, hfilters, hturned, rfl, hanswer⟩ :=
    log_answers hread (congrArg Cell.chain hran.start) hran.settled.sound
  exact ⟨c, u, u', p, tag, epoch, ⟨_, hran⟩, hturned, hfiltered, hfilters, hanswer, hran.size⟩

theorem LogPage.one {c : Chain} {u u' : Work} {p : Page} {tag : Option String}
    {epoch : Option Nat} (h : LogPage X cfg id es ev call v c u u' p tag epoch) (hin : p.InLog c) :
    LogListing X cfg u.cell.store p.cut call.route tag epoch p.position [(call, v)] := by
  have hanswer := h.answer hin
  have hlast : lastScanned [(call, v)] = scanned v := rfl
  obtain ⟨u₂, -, hnext⟩ := h.turned.next
  refine ⟨?_, ?_, ⟨hlast ▸ hanswer.range.1, ?_⟩, ?_, hlast ▸ hanswer.kept, ?_, ?_, fun hfits => ?_⟩
  all_goals try rw [List.forall_mem_singleton]
  · exact hanswer.pinned
  · refine ⟨hanswer.more, ?_⟩
    have hle := hanswer.range.2
    show v.get "next_cursor" = .null ↔ scanned v = p.cut.headSeq
    obtain ⟨hmore, hnull, -⟩ | ⟨hmore, token, row, hsome, -⟩ := nextCursor_ok hnext
    · rw [decide_eq_false_iff_not] at hmore
      exact ⟨fun _ => by omega, fun _ => hnull⟩
    · rw [decide_eq_true_eq] at hmore
      exact ⟨fun hnull => (by cases hsome.symm.trans hnull), fun he => by omega⟩
  · exact hanswer.range.2
  · rw [hlast, List.flatMap_singleton]
    exact hanswer.items
  · have hlimits : ((World.after X cfg es).relay X).cfg.limits = cfg.limits :=
      (after_bounded X cfg es).limits
    exact ⟨p.limit, hlimits ▸ h.turned.limited, hanswer.limit⟩
  · exact h.size
  · refine ⟨List.pairwise_singleton _ _, fun hlt => ?_⟩
    exact hanswer.progress hfits hlt

/-- A page and the pages after it. -/
theorem LogListing.cons {st st' : Store} {c c₁ c₂ : Chain} {route : Route} {tag : Option String}
    {epoch : Option Nat} {start : Nat} {x y : Call × Json}
    (hx : LogListing X cfg st c route tag epoch start [x])
    (hy : LogListing X cfg st' c route tag epoch (scanned x.2) (y :: pages))
    (h : Earlier (st.ledger c₁) (st'.ledger c₂)) (hs : Sound X (st.ledger c₁))
    (hlog : c.logId = c₁.logId) (hhead : c.headSeq ≤ c₁.headSeq) (hmore : scanned x.2 < c.headSeq) :
    LogListing X cfg st c route tag epoch start (x :: y :: pages) := by
  have hlast : lastScanned [x] = scanned x.2 := rfl
  have hxrange : start ≤ scanned x.2 := hx.range.1
  have hyrange := hy.range.1
  have hbound : lastScanned (y :: pages) ≤ c.headSeq := by
    obtain ⟨z, hz⟩ := Option.isSome_iff_exists.mp
      (List.getLast?_isSome.mpr (List.cons_ne_nil y pages))
    rw [lastScanned, hz]
    exact hy.range.2 z (List.mem_of_getLast? hz)
  have hkept : st.Kept c.logId (scanned x.2) (lastScanned (y :: pages)) := by
    rw [hlog]
    exact h.kept_before hs (hbound.trans hhead) (hlog ▸ hy.kept)
  have hmatching : st'.matching c.logId route tag epoch (scanned x.2) (lastScanned (y :: pages)) =
      st.matching c.logId route tag epoch (scanned x.2) (lastScanned (y :: pages)) := by
    rw [hlog]
    exact h.matching_eq hs (hbound.trans hhead) (hlog ▸ hy.kept)
  refine ⟨?_, ?_, ⟨by rw [lastScanned_cons]; omega, ?_⟩, ?_, ?_, ?_, ?_, fun hfits => ?_⟩
  · exact List.forall_mem_cons.mpr ⟨hx.pinned x List.mem_cons_self, hy.pinned⟩
  · exact List.forall_mem_cons.mpr ⟨hx.more x List.mem_cons_self, hy.more⟩
  · exact List.forall_mem_cons.mpr ⟨hx.range.2 x List.mem_cons_self, hy.range.2⟩
  · rw [List.flatMap_cons, lastScanned_cons, hy.items, hmatching,
      Store.matching_append hxrange hyrange]
    have hitems := hx.items
    rw [List.flatMap_singleton, hlast] at hitems
    rw [hitems]
  · rw [lastScanned_cons]
    exact (hlast ▸ hx.kept).append hkept
  · exact List.forall_mem_cons.mpr ⟨hx.limit x List.mem_cons_self, hy.limit⟩
  · exact List.forall_mem_cons.mpr ⟨hx.size x List.mem_cons_self, hy.size⟩
  · obtain ⟨-, hfirst⟩ := hx.increasing hfits
    have hfits' : st'.Fits X c.logId (scanned x.2) c.headSeq := by
      rw [hlog] at hfits ⊢
      exact h.fits hs hhead fun i hlow hhigh => hfits i (by omega) hhigh
    obtain ⟨hpairwise, hrest⟩ := hy.increasing hfits'
    refine ⟨List.pairwise_cons.mpr ⟨fun i hi => ?_, hpairwise⟩, fun hlt => ?_⟩
    · obtain ⟨z, hz, rfl⟩ := List.mem_map.mp hi
      exact hrest hmore z hz
    · have hstart := hfirst hlt x List.mem_cons_self
      exact List.forall_mem_cons.mpr ⟨hstart, fun z hz => hstart.trans (hrest hmore z hz)⟩

/-- Following the cursors, from a page on. -/
theorem Paged.logListing (h : Paged X cfg id es pages fs) :
    ∀ call v rest, pages = (call, v) :: rest → call.route.ofLog = true →
      ∃ ev c u u' p tag epoch, LogPage X cfg id es ev call v c u u' p tag epoch ∧
        (p.InLog c →
          LogListing X cfg u.cell.store p.cut call.route tag epoch p.position pages) := by
  induction h with
  | last h =>
      rintro call v rest hpages hroute
      obtain ⟨he, rfl⟩ := List.cons.inj hpages
      obtain ⟨rfl, rfl⟩ := Prod.mk.inj he
      obtain ⟨c, u, u', p, tag, epoch, hpage⟩ := h.logPage hroute
      exact ⟨_, c, u, u', p, tag, epoch, hpage, hpage.one⟩
  | next h hnext hcursor hsame' hrest ih =>
      rintro call v rest hpages hroute
      obtain ⟨he, rfl⟩ := List.cons.inj hpages
      obtain ⟨rfl, rfl⟩ := Prod.mk.inj he
      obtain ⟨c, u, u', p, tag, epoch, hpage⟩ := h.logPage hroute
      obtain ⟨ev', c', t, t', p', tag', epoch', hpage', hlisting⟩ :=
        ih _ _ _ rfl (by rw [hsame']; exact hroute)
      refine ⟨_, c, u, u', p, tag, epoch, hpage, fun hin => ?_⟩
      obtain ⟨m, hran⟩ := hpage.ran
      obtain ⟨m', hran'⟩ := hpage'.ran
      obtain ⟨hmore, hfrom, hlog, -, -⟩ :=
        Turned.resumed hran hran' hpage.turned hpage'.turned hnext hcursor
      have hcut : p'.cut = p.cut := hfrom.cut
      have hposition : p'.position = scanned _ := hfrom.position
      have hsame : c'.logId = c.logId := by rw [← hlog, hcut, hin.logId]
      have hearlier := hran.earlier hran'
      have hhead := hearlier.headSeq_le hran.settled.sound hran'.settled.sound hsame
      have hin' : p'.InLog c' := by
        refine ⟨hlog, ?_, ?_⟩
        · rw [hcut]
          exact hin.headSeq.trans hhead
        · rw [hcut, hposition]
          exact (hpage.answer hin).range.2
      obtain ⟨rfl, rfl⟩ := logBinding_inj
        (hpage'.filters.symm.trans (hfrom.filters.trans hpage.filters))
      have htail := hlisting hin'
      rw [hcut, hposition, hsame'] at htail
      exact (hpage.one hin).cons htail hearlier hran.settled.sound hin.logId hin.headSeq
        (decide_eq_true_eq.mp hmore)

end Pages

/-- The pages of a log read, from its first one on, whatever happens between
them: their items are the matching entries after the start, of as many
positions as were scanned, each once, in order and as they were stored; the
positions increase, and once there is no more all of the pinned log was shown. -/
theorem log_pages (X : Crypto) (cfg : RelayConfig) (id : String) {es fs : List Event} {call : Call}
    {v : Json} {rest : List (Call × Json)} (hpaged : Paged X cfg id es ((call, v) :: rest) fs)
    (hroute : call.route = .log ∨ call.route = .recordsGet)
    (hfirst : query call.query "cursor" = none) {start : Option Nat}
    (hstart : decimalQuery call.query "after_seq" 0 maxInteger = .ok start) {c : Chain}
    (hc : (storeAfter X cfg es id).chain = some c) (hle : start.getD 0 ≤ c.headSeq) :
    ∃ tag epoch, Filtered call.query tag epoch ∧
      LogListing X cfg (storeAfter X cfg es id) c call.route tag epoch (start.getD 0)
        ((call, v) :: rest) ∧
      ((storeAfter X cfg es id).entries c.logId (start.getD 0)
          (lastScanned ((call, v) :: rest))).map (·.relaySeq) =
        List.range' (start.getD 0 + 1) (lastScanned ((call, v) :: rest) - start.getD 0) ∧
      ∀ x, ((call, v) :: rest).getLast? = some x → x.2.get "has_more" = .bool false →
        ((call, v) :: rest).flatMap (a ·.2 "items") = (storeAfter X cfg es id).matching c.logId
          call.route tag epoch (start.getD 0) c.headSeq := by
  have hof : call.route.ofLog = true := by
    rcases hroute with h | h <;> rw [h] <;> rfl
  obtain ⟨ev, c', u, u', p, tag, epoch, hpage, hlisting⟩ := hpaged.logListing call v rest rfl hof
  obtain ⟨m, hran⟩ := hpage.ran
  obtain rfl := Option.some.inj (hran.stored.symm.trans hc)
  obtain ⟨u₁, hopened⟩ := hpage.turned.opened
  obtain ⟨hcut, -, ⟨start', hstart', hposition⟩, -⟩ := page_first hopened hfirst
  obtain rfl := Except.ok.inj (hstart'.symm.trans hstart)
  have hchain : p.cut = c' := hcut.trans (congrArg Cell.chain hran.start)
  have hall := hlisting ⟨by rw [hchain], by rw [hchain], by rw [hchain, hposition]; exact hle⟩
  rw [hchain, hposition, show u.cell.store = storeAfter X cfg es id by rw [hran.start]] at hall
  have hsound := hran.settled.sound
  rw [show u.cell.store = storeAfter X cfg es id by rw [hran.start]] at hsound
  refine ⟨tag, epoch, hpage.filtered, hall, hsound.entries_seq hall.kept, fun x hx hdone => ?_⟩
  have hmem : x ∈ (call, v) :: rest := List.mem_of_getLast? hx
  have hmore := (hall.more x hmem).1
  rw [hdone, Json.bool.injEq, eq_comm, decide_eq_false_iff_not, Nat.not_lt] at hmore
  have hlast : lastScanned ((call, v) :: rest) = c'.headSeq := by
    rw [lastScanned, hx]
    exact le_antisymm (hall.range.2 x hmem) hmore
  rw [hall.items, hlast]

namespace Sample

def logPath : String := chainPath ++ "/" ++ chainId ++ "/log"

/-- The log of `genesisRun` is read in two pages, between which the epoch is
rotated. -/
def logFirst : List Event :=
  genesisRun ++ [.request (readRequest .log 10 logPath "" [("limit", "2")]) (oracle 1500 2)]

def logNext : List Event :=
  perform 2 2 { rotationRequest with token := .ok (token 12 none "POST" epochsPath) } ++
    [.request (readRequest .log 11 logPath "" [("cursor", "a30007"), ("limit", "100")])
      (oracle 1500 6)]

theorem logPages_facts :
    ((replies (World.after crypto cfg logFirst) 1 (oracle 1500 3)).any fun x =>
      (replies (World.after crypto cfg (logFirst ++ .resume 1 (oracle 1500 3) .none :: logNext)) 3
        (oracle 1500 7)).any fun y =>
      decide (x.1.chain = chainId) && decide (x.1.route = .log) &&
      decide (x.1.query = [("limit", "2")]) &&
      decide (x.2.get "next_cursor" = .str "a30007") && decide (y.1.chain = chainId) &&
      decide (y.1.route = .log) && decide (y.1.query = [("cursor", "a30007"), ("limit", "100")]) &&
      decide (y.2.get "has_more" = .bool false)) = true := by
  decide +kernel

end Sample

/-- Two pages of a log of five entries, with a rotation between them. -/
theorem log_pages_two : ∃ (c : Chain) (fs : List Event) (x y : Call × Json), c.headSeq = 5 ∧
    Paged Sample.crypto Sample.cfg Sample.chainId Sample.logFirst [x, y] fs ∧
    [x, y].flatMap (a ·.2 "items") =
      (storeAfter Sample.crypto Sample.cfg Sample.logFirst Sample.chainId).matching c.logId
        .log none none 0 5 := by
  obtain ⟨⟨call, v⟩, hx, h⟩ := (Option.any_eq_true _ _).mp Sample.logPages_facts
  obtain ⟨⟨call', v'⟩, hy, h⟩ := (Option.any_eq_true _ _).mp h
  simp only [Bool.and_eq_true, decide_eq_true_eq] at h
  obtain ⟨⟨⟨⟨⟨⟨⟨hchain, hroute⟩, hquery⟩, hnext⟩, hchain'⟩, hroute'⟩, hquery'⟩, hdone⟩ := h
  have hpaged : Paged Sample.crypto Sample.cfg Sample.chainId Sample.logFirst
    [(call, v), (call', v')]
      (.resume 1 (Sample.oracle 1500 3) .none :: Sample.logNext ++
        [.resume 3 (Sample.oracle 1500 7) .none]) :=
    .next (hchain ▸ Sample.replied hx) hnext (by rw [hquery']; rfl) (hroute'.trans hroute.symm)
      (.last (hchain' ▸ Sample.replied hy))
  have hrun : ((storeAfter Sample.crypto Sample.cfg Sample.logFirst Sample.chainId).chain.map
      (·.headSeq)) = some 5 := by
    decide +kernel
  obtain ⟨c, hc, hhead⟩ := Option.map_eq_some_iff.mp hrun
  obtain ⟨tag, epoch, hfiltered, -, -, hall⟩ := log_pages Sample.crypto Sample.cfg Sample.chainId
    hpaged (.inl hroute) (by rw [hquery]; rfl)
    (show decimalQuery call.query "after_seq" 0 maxInteger = .ok none by rw [hquery]; rfl) hc
    (Nat.zero_le _)
  have htag : tag = none := hfiltered.tag.symm.trans (by rw [hquery]; rfl)
  have hepoch : epoch = none := by
    have h := hfiltered.epoch
    rw [hquery] at h
    exact (Except.ok.inj h).symm
  refine ⟨c, _, _, _, hhead, hpaged, ?_⟩
  rw [hall _ rfl hdone, hroute, htag, hepoch, hhead]
  rfl

end PallaSync
