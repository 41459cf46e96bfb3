import PallaSync.Heads
import PallaSync.LogPages

/-!
# Ranges of the transparency chain

A range is read up to a published head, which the cursor carries from page to
page with the index reached. The entries of the chain are a hash line and never
change, so the pages are consecutive intervals of it, and each hash a page
starts from is the one a client computes over the page before. That the walk
ends in the head needs that every published head tells the hash at its own
index (`store_headsTell`); unlike the rest of what a head repeats, this holds
after every run.
-/

namespace PallaSync

open Atomic HashLine Machine

/-! ## What published heads tell -/

section Hashes

variable {X : Crypto} {st st' : Store} {c c' : Chain} {i : Nat} {t : String}

/-- The hashes of the transparency chain stay. -/
theorem Earlier.transparencyAt (h : Earlier (st.ledger c) (st'.ledger c'))
    (hid : c'.chainId = c.chainId) (ht : st.transparencyAt X c i = some t) :
    st'.transparencyAt X c' i = some t := by
  have htid : c'.transparencyId = c.transparencyId := h.transparencyId
  rw [Store.transparencyAt] at ht ⊢
  rw [hid, htid]
  by_cases hi : i = 0
  · subst hi
    exact ht
  · rw [hashAt_pos (by omega)] at ht ⊢
    obtain ⟨row, hrow, rfl⟩ := Option.map_eq_some_iff.mp ht
    have hrow' := h.grows.transparency _ row hrow
    rw [Store.ledger_transparency] at hrow'
    rw [hrow', Option.map_some]

end Hashes

/-- A head tells the transparency chain at index `i`. -/
structure Head.Tells (X : Crypto) (st : Store) (c : Chain) (i : Nat) (h : Head) : Prop where
  index : h.entryIndex = i
  transparencyId : h.transparencyId = c.transparencyId
  signed : X.signRelay { h with relaySignature := "" }.body .head = some h.relaySignature
  within : i ≤ c.transparencyIndex
  hash : st.transparencyAt X c i = some h.transparencyHash

/-- Every published head does so, at the index it is published under. -/
structure HeadsTell (X : Crypto) (st : Store) : Prop where
  unborn : st.chain = none → ∀ q, st.heads.find? q = none
  told : ∀ c, st.chain = some c → ∀ q row, st.heads.find? q = some row →
    q.1 = c.transparencyId ∧ row.head.Tells X st c q.2

section Tell

variable {X : Crypto} {id : String} {st st' : Store}

theorem Head.Tells.later {c c' : Chain} {i : Nat} {h : Head} (ht : h.Tells X st c i)
    (hearlier : Earlier (st.ledger c) (st'.ledger c')) (hs : Settled X id (st.ledger c))
    (hs' : Settled X id (st'.ledger c')) : h.Tells X st' c' i := by
  have hid : c'.chainId = c.chainId := hs'.chainId.trans hs.chainId.symm
  exact ⟨ht.index, ht.transparencyId.trans hearlier.transparencyId.symm, ht.signed,
    ht.within.trans (hearlier.index_le hs.sound hs'.sound), hearlier.transparencyAt hid ht.hash⟩

/-- A row that is stored tells its own hash. -/
theorem Head.Signs.tells {c : Chain} {h : Head} (hsigns : h.Signs X c) (hcut : h.cut = c.cut X)
    (hs : Sound X (st.ledger c)) : h.Tells X st c c.transparencyIndex := by
  have hhash : h.transparencyHash = c.transparencyHash := congrArg Prod.fst hcut
  exact ⟨hsigns.entryIndex, hsigns.transparencyId, hsigns.signed, Nat.le_refl _,
    hhash ▸ hs.evidence.last_eq⟩

theorem Cuts.headsTell (h : Cuts X st st') (hlaw : HeadsTell X st)
    (hkeeps : ∀ c, st.chain = some c → ∃ c', st'.chain = some c' ∧
      Earlier (st.ledger c) (st'.ledger c'))
    (hs : ∀ c, st.chain = some c → Settled X id (st.ledger c))
    (hs' : ∀ c, st'.chain = some c → Settled X id (st'.ledger c)) : HeadsTell X st' := by
  -- a head that was published before
  have hold : ∀ c', st'.chain = some c' → ∀ q row, st.heads.find? q = some row →
      q.1 = c'.transparencyId ∧ row.head.Tells X st' c' q.2 := fun c' hc' q row hrow => by
    cases hc : st.chain with
    | none =>
        rw [hlaw.unborn hc] at hrow
        cases hrow
    | some c =>
        obtain ⟨c₁, hc₁, hearlier⟩ := hkeeps c hc
        obtain rfl := Option.some.inj (hc₁.symm.trans hc')
        obtain ⟨hq, htells⟩ := hlaw.told c hc q row hrow
        exact ⟨hq.trans hearlier.transparencyId.symm,
          htells.later hearlier (hs c hc) (hs' c₁ hc₁)⟩
  cases h with
  | kept hheads hchain =>
      exact ⟨fun hn => hheads ▸ hlaw.unborn (hchain ▸ hn),
        fun c' hc' q row hrow => hold c' hc' q row (hheads ▸ hrow)⟩
  | @published c row hstored hheads hkey hcut hsigns =>
      refine ⟨fun hn => ?_, fun c' hc' q row' hrow' => ?_⟩
      · rw [hstored] at hn
        cases hn
      · obtain rfl := Option.some.inj (hstored.symm.trans hc')
        rw [hheads, Table.find?_insertIgnore, hkey] at hrow'
        split at hrow'
        · rename_i hq
          obtain rfl := Option.some.inj hrow'
          cases hfind : st.heads.find? q with
          | some old => exact hold c hc' q old hfind
          | none =>
              rw [hq]
              exact ⟨rfl, hsigns.tells hcut (hs' c hc').sound⟩
        · exact hold c hc' q row' hrow'

/-- After every run every published head tells the hash at its index. -/
theorem store_headsTell (X : Crypto) (cfg : RelayConfig) (id : String) (es : List Event) :
    (storeAfter X cfg es id).deletion = none → HeadsTell X (storeAfter X cfg es id) := by
  induction es using List.reverseRecOn with
  | nil => exact fun _ => ⟨fun _ _ => rfl, fun _ hc => (by cases hc)⟩
  | append_singleton es ev ih =>
      intro hdel
      obtain ⟨hdel₀, hkeeps⟩ := store_earlier X cfg es [ev] id hdel
      have hcuts : Cuts X (storeAfter X cfg es id) (storeAfter X cfg (es ++ [ev]) id) := by
        have htxn := (step_txn X (World.after X cfg es) ev id).cuts
        rwa [storeAfter, storeAfter, World.after, World.after, run_snoc]
      exact hcuts.headsTell (ih hdel₀) hkeeps
        (fun c hc => (store_settled X cfg es id).ledger hdel₀ hc)
        fun c hc => (store_settled X cfg (es ++ [ev]) id).ledger hdel hc

end Tell

/-! ## Entries of an interval -/

/-- The stored entries of a transparency chain at the indices after `start` up
to `last`, as a read shows them. -/
def Store.evidence (st : Store) (tid : String) (start last : Nat) : List Json :=
  (List.range' (start + 1) (last - start)).filterMap fun i =>
    (st.transparency.find? (tid, i)).map (·.entry.toJson)

/-- The hash a client computes over entries it was shown, from hash `h` on. -/
def linkAll (X : Crypto) (h : String) (items : List Json) : String :=
  items.foldl (fun h e => linkHash X h (n e "entry_index") e transparencyLinkContext) h

section Intervals

variable {X : Crypto} {st st' : Store} {c c' : Chain} {tid : String} {i j k : Nat} {t : String}

theorem Store.evidence_append (hij : i ≤ j) (hjk : j ≤ k) :
    st.evidence tid i k = st.evidence tid i j ++ st.evidence tid j k := by
  rw [Store.evidence, range_split hij hjk, List.filterMap_append]
  rfl

theorem linkAll_append (items items' : List Json) :
    linkAll X t (items ++ items') = linkAll X (linkAll X t items) items' :=
  List.foldl_append

theorem Sound.transparencyEntry (h : Sound X (st.ledger c)) (hi : 1 ≤ i)
    (hle : i ≤ c.transparencyIndex) :
    ∃ row, st.transparency.find? (c.transparencyId, i) = some row ∧ row.entry.entryIndex = i :=
  by
  obtain ⟨row, hrow⟩ := Option.isSome_iff_exists.mp ((h.transparencyLaw.positions i).mpr ⟨hi, hle⟩)
  exact ⟨row, hrow, (h.transparencyLaw.linked i row hrow).1⟩

/-- The entries of an interval name its indices, one each. -/
theorem Sound.evidence_index (h : Sound X (st.ledger c)) (hle : j ≤ c.transparencyIndex) :
    (st.evidence c.transparencyId i j).map (n · "entry_index") =
      List.range' (i + 1) (j - i) := by
  unfold Store.evidence
  rw [List.map_filterMap]
  have hmap : ∀ x ∈ List.range' (i + 1) (j - i),
      ((st.transparency.find? (c.transparencyId, x)).map (·.entry.toJson)).map
        (n · "entry_index") = some x := fun x hx => by
    obtain ⟨hlow, hhigh⟩ := List.mem_range'_1.mp hx
    obtain ⟨row, hrow, hindex⟩ := h.transparencyEntry (i := x) (by omega) (by omega)
    rw [hrow, Option.map_some, Option.map_some]
    exact congrArg some hindex
  rw [List.filterMap_congr hmap, List.filterMap_some]

/-- From the hash before an interval its entries lead to the hash at its end. -/
theorem Sound.linkAll (h : Sound X (st.ledger c)) (ht : st.transparencyAt X c i = some t)
    (hij : i ≤ j) (hle : j ≤ c.transparencyIndex) :
    st.transparencyAt X c j = some (linkAll X t (st.evidence c.transparencyId i j)) := by
  induction j, hij using Nat.le_induction with
  | base =>
      rw [Store.evidence, Nat.sub_self]
      exact ht
  | succ j hij ih =>
      have hprev := ih (by omega)
      obtain ⟨row, hrow, hindex⟩ := h.transparencyEntry (i := j + 1) (by omega) hle
      obtain ⟨-, previous, hprevious, hhash⟩ := h.transparencyLaw.linked (j + 1) row hrow
      obtain rfl := Option.some.inj (hprevious.symm.trans hprev)
      have hlast : st.evidence c.transparencyId j (j + 1) = [row.entry.toJson] := by
        rw [Store.evidence, Nat.add_sub_cancel_left, List.range'_one, List.filterMap_cons, hrow]
        rfl
      rw [Store.evidence_append hij (Nat.le_succ j), hlast, linkAll_append, Store.transparencyAt,
        hashAt_pos (Nat.succ_pos j), hrow, Option.map_some, hhash]
      exact congrArg some (congrArg (linkHash X _ · _ _) hindex.symm)

theorem Earlier.evidence (h : Earlier (st.ledger c) (st'.ledger c')) (hs : Sound X (st.ledger c))
    (hle : j ≤ c.transparencyIndex) :
    st'.evidence c.transparencyId i j = st.evidence c.transparencyId i j := by
  unfold Store.evidence
  refine List.filterMap_congr fun x hx => ?_
  obtain ⟨hlow, hhigh⟩ := List.mem_range'_1.mp hx
  obtain ⟨row, hrow, -⟩ := hs.transparencyEntry (i := x) (by omega) (by omega)
  have hrow' := h.grows.transparency _ row hrow
  rw [Store.ledger_transparency] at hrow'
  rw [hrow, hrow']

end Intervals

/-! ## One page -/

/-- The range a query asks for, from the index after `start` up to `last`. -/
structure Ranged (q : Query) (tid : String) (start : Nat) (last : Option Nat) : Prop where
  tid : query q "transparency_id" = some tid
  start : ∃ x, decimalQuery q "after_index" 0 maxInteger = .ok x ∧ start = x.getD 0
  last : decimalQuery q "through_index" 0 maxInteger = .ok last

/-- How a cursor repeats the range. -/
def rangeBinding (tid : String) (start : Nat) (last : Option Nat) : Json :=
  .obj [("after_index", .num start), ("through_index", Json.ofOptionNat last),
    ("transparency_id", .str tid)]

/-- The index of the last item of an answer, that of its anchor if it has none. -/
def rangeEnd (v : Json) : Nat :=
  ((a v "items").getLast?.map (n · "entry_index")).getD (n v "anchor_index")

/-- The index of the last row, `position` before the first. -/
def lastIndex (rows : List TransparencyRow) (position : Nat) : Nat :=
  (rows.getLast?.map (·.entry.entryIndex)).getD position

section Scans

variable {X : Crypto} {st : Store} {c : Chain} {tid : String} {start last : Nat}

theorem scanTransparency_ok (rows : List TransparencyRow) (position bytes : Nat) :
    ∃ taken, taken <+: rows ∧ scanTransparency X rows position bytes =
      (lastIndex taken position, taken.map (·.entry.toJson)) := by
  induction rows generalizing position bytes with
  | nil => exact ⟨[], List.nil_prefix, rfl⟩
  | cons row rows ih =>
      unfold scanTransparency
      dsimp only
      split
      · exact ⟨[], List.nil_prefix, rfl⟩
      · obtain ⟨taken, hcut, hscan⟩ := ih row.entry.entryIndex
          (bytes + (Store.size X row.entry.toJson + 1))
        refine ⟨row :: taken, (List.prefix_cons_inj row).mpr hcut, ?_⟩
        rw [hscan]
        cases taken <;> simp [lastIndex, List.getLast?_cons]

theorem mem_transparencyRows {row : TransparencyRow} : row ∈ transparencyRows st tid start last ↔
    row ∈ st.transparency ∧ row.transparencyId = tid ∧ start < row.idx ∧ row.idx ≤ last := by
  rw [transparencyRows, List.mem_insertionSort, Table.mem_select]
  simp

/-- The rows of a range are at consecutive indices. -/
theorem Sound.transparencyRows_idx (h : Sound X (st.ledger c)) (start : Nat)
    (hlast : last ≤ c.transparencyIndex) :
    (transparencyRows st c.transparencyId start last).map (·.idx) =
      List.range' (start + 1) (last - start) := by
  have hle : (transparencyRows st c.transparencyId start last).Pairwise fun x y => x.idx ≤ y.idx :=
    List.pairwise_insertionSort _ _
  have hkeys : ((transparencyRows st c.transparencyId start last).map TransparencyRow.key).Nodup :=
    ((List.perm_insertionSort _ _).map _).nodup_iff.mpr (Table.select_nodup st.transparency _)
  have hsorted : ((transparencyRows st c.transparencyId start last).map (·.idx)).Pairwise
      (· < ·) := by
    refine List.pairwise_map.mpr ((hle.and (List.pairwise_map.mp hkeys)).imp_of_mem ?_)
    rintro x y hx hy ⟨hxy, hne⟩
    refine lt_of_le_of_ne hxy fun he => hne ?_
    rw [TransparencyRow.key, TransparencyRow.key, he, (mem_transparencyRows.mp hx).2.1,
      (mem_transparencyRows.mp hy).2.1]
  refine hsorted.eq_of_mem_iff List.pairwise_lt_range' fun i => ?_
  rw [List.mem_map, List.mem_range'_1]
  constructor
  · rintro ⟨row, hrow, rfl⟩
    obtain ⟨-, -, hlow, hhigh⟩ := mem_transparencyRows.mp hrow
    omega
  · rintro ⟨hlow, hhigh⟩
    obtain ⟨row, hrow, -⟩ := h.transparencyEntry (i := i) (by omega) (by omega)
    have hkey := Table.key_of_find? hrow
    obtain ⟨htid, hi⟩ := Prod.mk.inj hkey
    exact ⟨row, mem_transparencyRows.mpr ⟨Table.mem_of_find? hrow, htid, by omega⟩, hi⟩

/-- A prefix of them shows an interval of the entries. -/
theorem Sound.transparencyRows_prefix (h : Sound X (st.ledger c))
    (hlast : last ≤ c.transparencyIndex) {taken : List TransparencyRow}
    (hcut : taken <+: transparencyRows st c.transparencyId start last) :
    lastIndex taken start = start + taken.length ∧ taken.length ≤ last - start ∧
      taken.map (·.entry.toJson) =
        st.evidence c.transparencyId start (start + taken.length) := by
  have hfront := hcut.map (·.idx)
  rw [h.transparencyRows_idx start hlast] at hfront
  have hlen : taken.length ≤ last - start := by
    have hle := hfront.length_le
    rwa [List.length_map, List.length_range'] at hle
  have hidx : taken.map (·.idx) = List.range' (start + 1) taken.length := by
    have htake := List.prefix_iff_eq_take.mp hfront
    rw [htake, List.length_map, List.take_range'_of_length_ge hlen]
  have hentry : ∀ row ∈ taken, row.entry.entryIndex = row.idx ∧
      st.transparency.find? (c.transparencyId, row.idx) = some row := fun row hrow => by
    obtain ⟨hmem, htid, -⟩ := mem_transparencyRows.mp (hcut.subset hrow)
    have hfind := Table.find?_of_mem hmem
    rw [TransparencyRow.key, htid] at hfind
    exact ⟨(h.transparencyLaw.linked _ row hfind).1, hfind⟩
  refine ⟨?_, hlen, ?_⟩
  · have hindex : taken.map (·.entry.entryIndex) = taken.map (·.idx) :=
      List.map_congr_left fun row hrow => (hentry row hrow).1
    rw [lastIndex, ← List.getLast?_map, hindex, hidx, List.getLast?_range']
    split <;> simp_all
  · have hmap : (List.range' (start + 1) taken.length).map (fun i =>
        (st.transparency.find? (c.transparencyId, i)).map (·.entry.toJson)) =
        (taken.map (·.entry.toJson)).map some := by
      rw [← hidx, List.map_map, List.map_map]
      refine List.map_congr_left fun row hrow => ?_
      rw [Function.comp, (hentry row hrow).2]
      rfl
    have hid : st.evidence c.transparencyId start (start + taken.length) =
        ((List.range' (start + 1) taken.length).map fun i =>
          (st.transparency.find? (c.transparencyId, i)).map (·.entry.toJson)).filterMap id := by
      rw [Store.evidence, Nat.add_sub_cancel_left, List.filterMap_map]
      rfl
    rw [hid, hmap, List.filterMap_map]
    exact List.filterMap_some.symm

end Scans

/-- A page whose range lies in the pinned part of the chain: its extra is head
`h`, published there. -/
structure Page.InRange (p : Page) (c : Chain) (h : Head) : Prop where
  extra : p.extra = h.toJson
  last : h.entryIndex ≤ c.transparencyIndex
  position : p.position ≤ h.entryIndex

/-- The answer of a page that starts as `p`: the entries of an interval after
its position, on the way to head `h`. -/
structure RangeAnswer (X : Crypto) (st : Store) (c : Chain) (p : Page) (h : Head) (v : Json) :
    Prop where
  head : v.get "head" = h.toJson
  anchor : v.get "anchor_index" = .num p.position
  hash : st.transparencyAt X c p.position = some (s v "anchor_hash")
  range : p.position ≤ rangeEnd v ∧ rangeEnd v ≤ h.entryIndex
  items : a v "items" = st.evidence c.transparencyId p.position (rangeEnd v)
  more : v.get "has_more" = .bool (decide (rangeEnd v < h.entryIndex))
  limit : (a v "items").length ≤ p.limit
  progress : p.position < h.entryIndex → p.position < rangeEnd v

section Answers

variable {R : Relay} {q : Query} {v : Json} {u u' : Work} {tid tid' : String}
  {start start' : Nat} {last last' : Option Nat}

/-- What a range read does once the page it starts with is known. -/
def rangeFrom (R : Relay) (id : String) (p : Page) : Tx Json := do
  let hash ← check fun st c => anchorHash R.crypto st c id p.position
  let last := n p.extra "entry_index"
  let rows ← look fun st => (transparencyRows st id p.position last).take p.limit
  let (position, items) := scanTransparency R.crypto rows p.position 0
  failIf (items.isEmpty && decide (position < last)) (err .transparencyRangeUnavailable)
  let next ← nextCursor R { p with position } (decide (position < last))
  pure (.obj [("anchor_hash", .str hash), ("anchor_index", .num p.position),
    ("has_more", .bool (decide (position < last))), ("head", p.extra), ("items", .arr items),
    ("next_cursor", next)])

/-- The answer of a range read from the page it starts with. -/
structure RangeFrom (R : Relay) (tid : String) (p p' : Page) (more : Bool) (v : Json)
    (u u' : Work) : Prop where
  hash : anchorHash R.crypto u.cell.store u.cell.chain tid p.position = .ok (s v "anchor_hash")
  scan : ∃ items position, scanTransparency R.crypto ((transparencyRows u.cell.store tid p.position
      (n p.extra "entry_index")).take p.limit) p.position 0 = (position, items) ∧
    (items = [] → n p.extra "entry_index" ≤ position) ∧ p' = { p with position } ∧
    more = decide (position < n p.extra "entry_index") ∧ a v "items" = items
  next : nextCursor R p' more u = .ok (v.get "next_cursor", u')
  members : v.get "head" = p.extra ∧ v.get "anchor_index" = .num p.position ∧
    v.get "has_more" = .bool more

theorem rangeFrom_ok {p : Page} (h : rangeFrom R tid p u = .ok (v, u')) :
    ∃ p' more, RangeFrom R tid p p' more v u u' := by
  simp only [rangeFrom, bind_ok, check_ok, look_ok, failIf_ok, pure_ok] at h
  obtain ⟨hash, _, ⟨hhash, rfl⟩, rows, _, ⟨rfl, rfl⟩, _, _, ⟨hempty, rfl⟩, next, _, hnext, rfl,
    rfl⟩ := h
  refine ⟨_, _, hhash, ⟨_, _, rfl, fun hnil => ?_, rfl, rfl, rfl⟩, hnext, rfl, rfl, rfl⟩
  rw [hnil] at hempty
  simpa using hempty

/-- A range read: its first page takes up the published head. -/
theorem transparencyRange_ok (h : transparencyRange R q u = .ok (v, u')) :
    ∃ start last p p₁ p' more u₁, u₁.cell = u.cell ∧
      Ranged q u.cell.chain.transparencyId start last ∧
      p.filters = rangeBinding u.cell.chain.transparencyId start last ∧
      page R .transparency q p.filters u = .ok (p, u₁) ∧
      (if (query q "cursor").isSome then p₁ = p
        else firstRange u.cell.store u.cell.chain p u.cell.chain.transparencyId start last =
          .ok p₁) ∧
      RangeFrom R u.cell.chain.transparencyId p₁ p' more v u₁ u' := by
  simp only [transparencyRange, bind_ok, lift_ok, require_ok, chain_ok, failIf_ok] at h
  obtain ⟨_, _, ⟨-, rfl⟩, id, _, ⟨hid, rfl⟩, _, _, ⟨-, rfl⟩, c, _, ⟨rfl, rfl⟩, _, _, ⟨hsame, rfl⟩,
    start, _, ⟨hstart, rfl⟩, last, _, ⟨hlast, rfl⟩, p, u₁, hpage, h⟩ := h
  obtain rfl : id = u.cell.chain.transparencyId := by simpa using hsame
  obtain ⟨hcell, -, hfilters, -⟩ := page_opened hpage
  have hranged : Ranged q u.cell.chain.transparencyId (start.getD 0) last :=
    ⟨hid, ⟨start, hstart, rfl⟩, hlast⟩
  rcases ite_ok.mp h with ⟨hcursor, h⟩ | ⟨hcursor, h⟩
  · have hfrom : rangeFrom R u.cell.chain.transparencyId p u₁ = .ok (v, u') := by
      obtain ⟨_, _, hpure, h⟩ := bind_ok.mp h
      obtain ⟨rfl, rfl⟩ := pure_ok.mp hpure
      exact h
    obtain ⟨p', more, hfrom⟩ := rangeFrom_ok hfrom
    exact ⟨_, _, p, p, p', more, u₁, hcell, hranged, hfilters, hfilters ▸ hpage,
      by rw [if_pos hcursor], hfrom⟩
  · obtain ⟨p₁, u₂, hcheck, h⟩ := bind_ok.mp h
    obtain ⟨hfirst, rfl⟩ := check_ok.mp hcheck
    rw [hcell] at hfirst
    have hfrom : rangeFrom R u.cell.chain.transparencyId p₁ u₁ = .ok (v, u') := h
    obtain ⟨p', more, hfrom⟩ := rangeFrom_ok hfrom
    exact ⟨_, _, p, p₁, p', more, u₁, hcell, hranged, hfilters, hfilters ▸ hpage,
      by rw [if_neg hcursor]; exact hfirst, hfrom⟩

theorem anchorHash_at {X : Crypto} {st : Store} {c : Chain} {i : Nat} {hash : String}
    (h : anchorHash X st c c.transparencyId i = .ok hash) :
    st.transparencyAt X c i = some hash := by
  unfold anchorHash at h
  by_cases hi : i = 0
  · rw [if_pos hi] at h
    obtain rfl := Except.ok.inj h
    rw [hi]
    rfl
  · rw [if_neg hi, Check.require_ok] at h
    rw [Store.transparencyAt, hashAt_pos (by omega)]
    exact h

/-- Where an answer ends, by the interval its items are. -/
theorem rangeEnd_eq {X : Crypto} {st : Store} {c : Chain} {i j : Nat} (hs : Sound X (st.ledger c))
    (hanchor : v.get "anchor_index" = .num i) (hij : i ≤ j) (hj : j ≤ c.transparencyIndex)
    (hitems : a v "items" = st.evidence c.transparencyId i j) : rangeEnd v = j := by
  have hi : n v "anchor_index" = i := by
    rw [n, hanchor]
    rfl
  rw [rangeEnd, hi, ← List.getLast?_map, hitems, hs.evidence_index hj, List.getLast?_range']
  split
  · have hsame : j = i := by omega
    rw [hsame]
    rfl
  · show (i + 1 + (j - i) - 1) = j
    omega

theorem RangeFrom.answer {p p' : Page} {more : Bool} {c : Chain} {h : Head} {tid : String}
    (hfrom : RangeFrom R tid p p' more v u u') (htid : tid = c.transparencyId)
    (hchain : u.cell.chain = c) (hs : Sound R.crypto (u.cell.store.ledger c))
    (hin : p.InRange c h) :
    RangeAnswer R.crypto u.cell.store c p h v ∧ p' = { p with position := rangeEnd v } ∧
      more = decide (rangeEnd v < h.entryIndex) := by
  subst htid
  obtain ⟨items, position, hscan, hempty, rfl, rfl, hitems⟩ := hfrom.scan
  obtain ⟨hhead, hanchor, hmore⟩ := hfrom.members
  have hlast : n p.extra "entry_index" = h.entryIndex := by
    rw [hin.extra]
    rfl
  rw [hlast] at hscan hempty hmore ⊢
  obtain ⟨taken, hcut, htaken⟩ := scanTransparency_ok (X := R.crypto)
    ((transparencyRows u.cell.store c.transparencyId p.position h.entryIndex).take p.limit)
    p.position 0
  obtain ⟨rfl, rfl⟩ := Prod.mk.inj (htaken.symm.trans hscan)
  obtain ⟨hreached, hlen, hshown⟩ :=
    hs.transparencyRows_prefix hin.last (hcut.trans (List.take_prefix _ _))
  have hposition := hin.position
  have hindex := hin.last
  rw [hshown] at hitems
  have hend : rangeEnd v = p.position + taken.length :=
    rangeEnd_eq hs hanchor (by omega) (by omega) hitems
  rw [hreached, ← hend] at hempty hmore ⊢
  have hhash := hfrom.hash
  rw [hchain] at hhash
  refine ⟨⟨hhead.trans hin.extra, hanchor, anchorHash_at hhash, by omega, ?_, hmore, ?_, ?_⟩, rfl,
    rfl⟩
  · rw [hitems, hend]
  · have hle := hcut.length_le
    rw [hitems, ← hshown, List.length_map]
    exact hle.trans (List.length_take_le _ _)
  · intro hlt
    by_contra hstuck
    have hnil : taken = [] := List.length_eq_zero_iff.mp (by omega)
    have := hempty (by rw [hnil]; rfl)
    omega

end Answers

/-! ## All pages -/

/-- The index the last of the pages ends at. -/
def lastEnd (pages : List (Call × Json)) : Nat := (pages.getLast?.map (rangeEnd ·.2)).getD 0

theorem lastEnd_cons (x y : Call × Json) (pages : List (Call × Json)) :
    lastEnd (x :: y :: pages) = lastEnd (y :: pages) := by
  simp [lastEnd, List.getLast?_cons_cons]

/-- The second answer starts where the first one ends, with the hash a client
computes over it. -/
def Continues (X : Crypto) (x y : Call × Json) : Prop :=
  y.2.get "anchor_index" = .num (rangeEnd x.2) ∧
    s y.2 "anchor_hash" = linkAll X (s x.2 "anchor_hash") (a x.2 "items")

/-- Pages that show the entries after `start`, on the way to head `h`. -/
structure RangeListing (X : Crypto) (cfg : RelayConfig) (st : Store) (c : Chain) (h : Head)
    (start : Nat) (pages : List (Call × Json)) : Prop where
  head : ∀ x ∈ pages, x.2.get "head" = h.toJson
  first : ∀ x, pages.head? = some x → x.2.get "anchor_index" = .num start ∧
    st.transparencyAt X c start = some (s x.2 "anchor_hash")
  anchored : pages.IsChain (Continues X)
  range : start ≤ lastEnd pages ∧ ∀ x ∈ pages, rangeEnd x.2 ≤ h.entryIndex
  items : pages.flatMap (a ·.2 "items") = st.evidence c.transparencyId start (lastEnd pages)
  /-- There is more, and a cursor, exactly below the head. -/
  more : ∀ x ∈ pages, x.2.get "has_more" = .bool (decide (rangeEnd x.2 < h.entryIndex)) ∧
    (x.2.get "next_cursor" = .null ↔ rangeEnd x.2 = h.entryIndex)
  limit : ∀ x ∈ pages, ∃ limit, Limited cfg.limits x.1.query limit ∧
    (a x.2 "items").length ≤ limit
  size : ∀ x ∈ pages, Store.size X x.2 ≤ responseMax
  /-- Each page goes on, so there are only so many. -/
  increasing : start < h.entryIndex → pages.length ≤ h.entryIndex - start ∧
    ∀ x ∈ pages, start < rangeEnd x.2
  short : start = h.entryIndex → pages.length = 1

section Pages

variable {X : Crypto} {cfg : RelayConfig} {id : String} {es fs : List Event} {ev : Event}
  {call : Call} {v : Json} {pages : List (Call × Json)}

/-- A range page that the run answers: opened as `p`, started as `p₁`, left as
`p'`. -/
structure RangePage (X : Crypto) (cfg : RelayConfig) (id : String) (es : List Event) (ev : Event)
    (call : Call) (v : Json) (c : Chain) (u u' : Work) (p p₁ p' : Page) (more : Bool) : Prop where
  ran : ∃ m, Ran X (World.after X cfg es) id ev c m v u u'
  turned : Turned ((World.after X cfg es).relay X) .transparency call.query v u u' p p' more
  opening : ∃ start last, Ranged call.query c.transparencyId start last ∧
    p.filters = rangeBinding c.transparencyId start last ∧
    (if (query call.query "cursor").isSome then p₁ = p
      else firstRange u.cell.store c p c.transparencyId start last = .ok p₁)
  answer : ∀ h, p₁.InRange c h → RangeAnswer X u.cell.store c p₁ h v ∧
    p' = { p₁ with position := rangeEnd v } ∧ more = decide (rangeEnd v < h.entryIndex)
  limit : p₁.limit = p.limit
  size : Store.size X v ≤ responseMax

theorem firstRange_ok {st : Store} {c : Chain} {p p₁ : Page} {tid : String} {start : Nat}
    {last : Option Nat} (h : firstRange st c p tid start last = .ok p₁) :
    start ≤ last.getD c.transparencyIndex ∧ last.getD c.transparencyIndex ≤ c.transparencyIndex ∧
      ∃ head, publishedHead st tid (last.getD c.transparencyIndex) = some head ∧
        p₁ = { p with extra := head.toJson, position := start } := by
  simp only [firstRange, Check.bind_ok, Check.failIf_ok, Check.require_ok, Check.pure_ok,
    Bool.or_eq_false_iff, decide_eq_false_iff_not, Nat.not_lt] at h
  obtain ⟨_, ⟨hstart, hlast⟩, head, hhead, rfl⟩ := h
  exact ⟨hstart, hlast, head, hhead, rfl⟩

theorem Replied.rangePage (h : Replied X (World.after X cfg es) id ev call v)
    (hroute : call.route = .transparency) :
    ∃ c u u' p p₁ p' more, RangePage X cfg id es ev call v c u u' p p₁ p' more := by
  obtain ⟨body, c, u, u', hran⟩ := h.ran (by rw [hroute]; rfl)
  have hread : transparencyRange ((World.after X cfg es).relay X) call.query u = .ok (v, u') := by
    have hrun := hran.run
    unfold readRoute at hrun
    rw [hroute] at hrun
    exact hrun
  have hchain : u.cell.chain = c := congrArg Cell.chain hran.start
  obtain ⟨start, last, p, p₁, p', more, u₁, hcell, hranged, hfilters, hpage, hfirst, hfrom⟩ :=
    transparencyRange_ok hread
  rw [hchain] at hranged hfilters hfirst hfrom
  -- the first page only takes up another position and the head
  have hsame : p₁.cut = p.cut ∧ p₁.filters = p.filters ∧ p₁.resource = p.resource ∧
      p₁.limit = p.limit := by
    split at hfirst
    · rw [hfirst]
      exact ⟨rfl, rfl, rfl, rfl⟩
    · obtain ⟨-, -, head, -, rfl⟩ := firstRange_ok hfirst
      exact ⟨rfl, rfl, rfl, rfl⟩
  obtain ⟨hcut, hf, hr, hlimit⟩ := hsame
  have hleft : p'.cut = p.cut ∧ p'.filters = p.filters ∧ p'.resource = p.resource := by
    obtain ⟨_, _, -, -, rfl, -⟩ := hfrom.scan
    exact ⟨hcut, hf, hr⟩
  have hturned : Turned ((World.after X cfg es).relay X) .transparency call.query v u u' p p'
      more := ⟨⟨u₁, hpage⟩, hleft, ⟨u₁, hcell, hfrom.next⟩⟩
  refine ⟨c, u, u', p, p₁, p', more, ⟨_, hran⟩, hturned, ⟨start, last, hranged, hfilters, hfirst⟩,
    fun head hin => ?_, hlimit, hran.size⟩
  have hsound := hran.settled.sound
  have hanswer := hfrom.answer rfl (by rw [hcell, hchain]) (by rw [hcell]; exact hsound) hin
  rw [hcell] at hanswer
  exact hanswer

theorem RangePage.one {c : Chain} {u u' : Work} {p p₁ p' : Page} {more : Bool} {h : Head}
    (hp : RangePage X cfg id es ev call v c u u' p p₁ p' more) (hin : p₁.InRange c h) :
    RangeListing X cfg u.cell.store c h p₁.position [(call, v)] := by
  obtain ⟨hanswer, -, rfl⟩ := hp.answer h hin
  have hend : lastEnd [(call, v)] = rangeEnd v := rfl
  obtain ⟨u₂, -, hnext⟩ := hp.turned.next
  have hrange := hanswer.range
  refine ⟨?_, fun x hx => ?_, List.IsChain.singleton _, ⟨hend ▸ hrange.1, ?_⟩, ?_, ?_, ?_, ?_,
    fun hlt => ⟨?_, ?_⟩, fun _ => rfl⟩
  all_goals try rw [List.forall_mem_singleton]
  · exact hanswer.head
  · obtain rfl := Option.some.inj hx
    exact ⟨hanswer.anchor, hanswer.hash⟩
  · exact hrange.2
  · rw [hend, List.flatMap_singleton]
    exact hanswer.items
  · refine ⟨hanswer.more, ?_⟩
    show v.get "next_cursor" = .null ↔ rangeEnd v = h.entryIndex
    obtain ⟨hmore, hnull, -⟩ | ⟨hmore, token, row, hsome, -⟩ := nextCursor_ok hnext
    · rw [decide_eq_false_iff_not] at hmore
      exact ⟨fun _ => by omega, fun _ => hnull⟩
    · rw [decide_eq_true_eq] at hmore
      exact ⟨fun hnull => (by cases hsome.symm.trans hnull), fun he => by omega⟩
  · have hlimits : ((World.after X cfg es).relay X).cfg.limits = cfg.limits :=
      (after_bounded X cfg es).limits
    exact ⟨p.limit, hlimits ▸ hp.turned.limited, hp.limit ▸ hanswer.limit⟩
  · exact hp.size
  · have := hanswer.progress hlt
    show 1 ≤ h.entryIndex - p₁.position
    omega
  · exact hanswer.progress hlt

/-- A page and the pages after it. -/
theorem RangeListing.cons {st st' : Store} {c c' : Chain} {h : Head} {start : Nat}
    {x y : Call × Json} (hx : RangeListing X cfg st c h start [x])
    (hy : RangeListing X cfg st' c' h (rangeEnd x.2) (y :: pages))
    (hearlier : Earlier (st.ledger c) (st'.ledger c')) (hs : Sound X (st.ledger c))
    (hid : c'.chainId = c.chainId) (hindex : h.entryIndex ≤ c.transparencyIndex)
    (hmore : rangeEnd x.2 < h.entryIndex) :
    RangeListing X cfg st c h start (x :: y :: pages) := by
  have hend : lastEnd [x] = rangeEnd x.2 := rfl
  have htid : c'.transparencyId = c.transparencyId := hearlier.transparencyId
  have hxrange : start ≤ rangeEnd x.2 := hx.range.1
  have hyrange := hy.range.1
  have hbound : lastEnd (y :: pages) ≤ h.entryIndex := by
    obtain ⟨z, hz⟩ := Option.isSome_iff_exists.mp
      (List.getLast?_isSome.mpr (List.cons_ne_nil y pages))
    rw [lastEnd, hz]
    exact hy.range.2 z (List.mem_of_getLast? hz)
  have hitems : a x.2 "items" = st.evidence c.transparencyId start (rangeEnd x.2) := by
    have hitems := hx.items
    rwa [List.flatMap_singleton, hend] at hitems
  have hnext : Continues X x y := by
    obtain ⟨hanchor, hhash⟩ := hy.first y rfl
    obtain ⟨-, hstart⟩ := hx.first x rfl
    have hlinked := hs.linkAll hstart hxrange (by omega)
    have hkept := hearlier.transparencyAt hid hlinked
    refine ⟨hanchor, Option.some.inj (hhash.symm.trans ?_)⟩
    rw [hkept, hitems]
  refine ⟨?_, fun z hz => ?_, .cons_cons hnext hy.anchored, ⟨by rw [lastEnd_cons]; omega, ?_⟩, ?_,
    ?_, ?_, ?_, fun hlt => ?_, fun he => by omega⟩
  · exact List.forall_mem_cons.mpr ⟨hx.head x List.mem_cons_self, hy.head⟩
  · obtain rfl := Option.some.inj hz
    exact hx.first x rfl
  · exact List.forall_mem_cons.mpr ⟨hx.range.2 x List.mem_cons_self, hy.range.2⟩
  · have hrest := hearlier.evidence hs (i := rangeEnd x.2) (hbound.trans hindex)
    rw [List.flatMap_cons, lastEnd_cons, hy.items, htid, hrest, hitems,
      Store.evidence_append hxrange hyrange]
  · exact List.forall_mem_cons.mpr ⟨hx.more x List.mem_cons_self, hy.more⟩
  · exact List.forall_mem_cons.mpr ⟨hx.limit x List.mem_cons_self, hy.limit⟩
  · exact List.forall_mem_cons.mpr ⟨hx.size x List.mem_cons_self, hy.size⟩
  · obtain ⟨-, hfirst⟩ := hx.increasing hlt
    obtain ⟨hlength, hrest⟩ := hy.increasing hmore
    have hstart := hfirst x List.mem_cons_self
    refine ⟨?_, List.forall_mem_cons.mpr ⟨hstart, fun z hz => hstart.trans (hrest z hz)⟩⟩
    rw [List.length_cons]
    omega

/-- Following the cursors, from a page on. -/
theorem Paged.rangeListing (h : Paged X cfg id es pages fs) :
    ∀ call v rest, pages = (call, v) :: rest → call.route = .transparency →
      ∃ ev c u u' p p₁ p' more, RangePage X cfg id es ev call v c u u' p p₁ p' more ∧
        ∀ head, p₁.InRange c head →
          RangeListing X cfg u.cell.store c head p₁.position pages := by
  induction h with
  | last h =>
      rintro call v rest hpages hroute
      obtain ⟨he, rfl⟩ := List.cons.inj hpages
      obtain ⟨rfl, rfl⟩ := Prod.mk.inj he
      obtain ⟨c, u, u', p, p₁, p', more, hpage⟩ := h.rangePage hroute
      exact ⟨_, c, u, u', p, p₁, p', more, hpage, fun _ => hpage.one⟩
  | next h hnext hcursor hsame' hrest ih =>
      rintro call v rest hpages hroute
      obtain ⟨he, rfl⟩ := List.cons.inj hpages
      obtain ⟨rfl, rfl⟩ := Prod.mk.inj he
      obtain ⟨c, u, u', p, p₁, p', more, hpage⟩ := h.rangePage hroute
      obtain ⟨ev', c', t, t', r, r₁, r', more', hpage', hlisting⟩ :=
        ih _ _ _ rfl (hsame'.trans hroute)
      refine ⟨_, c, u, u', p, p₁, p', more, hpage, fun head hin => ?_⟩
      obtain ⟨m, hran⟩ := hpage.ran
      obtain ⟨m', hran'⟩ := hpage'.ran
      obtain ⟨hmore, hfrom, -⟩ :=
        Turned.resumed hran hran' hpage.turned hpage'.turned hnext hcursor
      obtain ⟨hanswer, rfl, rfl⟩ := hpage.answer head hin
      -- the next page starts as the cursor says
      have hresumed : r₁ = r := by
        obtain ⟨_, _, -, -, hopen⟩ := hpage'.opening
        simp only [hcursor, Option.isSome_some, if_true] at hopen
        exact hopen
      subst hresumed
      have hearlier := hran.earlier hran'
      have hindex := hearlier.index_le hran.settled.sound hran'.settled.sound
      have hposition : r₁.position = rangeEnd _ := hfrom.position
      have hin' : r₁.InRange c' head := by
        refine ⟨hfrom.extra.trans hin.extra, hin.last.trans hindex, ?_⟩
        rw [hposition]
        exact hanswer.range.2
      have htail := hlisting head hin'
      rw [hposition] at htail
      exact (hpage.one hin).cons htail hearlier hran.settled.sound
        (hran'.settled.chainId.trans hran.settled.chainId.symm) hin.last
        (decide_eq_true_eq.mp hmore)

end Pages

/-- The pages of a range read, from its first one on, whatever happens between
them: they show one signed head, published at the end of the range; each starts
where the one before ends, with the hash a client computes over it; their items
are the entries after the start, each once and in order, and once there is no
more they are all entries of the range and link to the hash of the head. -/
theorem range_pages (X : Crypto) (cfg : RelayConfig) (id : String) {es fs : List Event}
    {call : Call}
    {v : Json} {rest : List (Call × Json)} (hpaged : Paged X cfg id es ((call, v) :: rest) fs)
    (hroute : call.route = .transparency) (hfirst : query call.query "cursor" = none) :
    ∃ c start asked last h, (storeAfter X cfg es id).chain = some c ∧
      Ranged call.query c.transparencyId start asked ∧ last = asked.getD c.transparencyIndex ∧
      start ≤ last ∧ last ≤ c.transparencyIndex ∧
      publishedHead (storeAfter X cfg es id) c.transparencyId last = some h ∧
      h.Tells X (storeAfter X cfg es id) c last ∧
      RangeListing X cfg (storeAfter X cfg es id) c h start ((call, v) :: rest) ∧
      (((call, v) :: rest).flatMap (a ·.2 "items")).map (n · "entry_index") =
        List.range' (start + 1) (lastEnd ((call, v) :: rest) - start) ∧
      ∀ x, ((call, v) :: rest).getLast? = some x → x.2.get "has_more" = .bool false →
        ((call, v) :: rest).flatMap (a ·.2 "items") =
            (storeAfter X cfg es id).evidence c.transparencyId start last ∧
          linkAll X (s v "anchor_hash") (((call, v) :: rest).flatMap (a ·.2 "items")) =
            h.transparencyHash := by
  obtain ⟨ev, c, u, u', p, p₁, p', more, hpage, hlisting⟩ :=
    hpaged.rangeListing call v rest rfl hroute
  obtain ⟨m, hran⟩ := hpage.ran
  have hstore : u.cell.store = storeAfter X cfg es id := by rw [hran.start]
  have hsettled := hran.settled
  obtain ⟨start, asked, hranged, -, hopen⟩ := hpage.opening
  rw [hfirst, if_neg (by simp)] at hopen
  obtain ⟨hstart, hlast, h, hhead, rfl⟩ := firstRange_ok hopen
  rw [hstore] at hhead hsettled hlisting
  obtain ⟨row, hrow, rfl⟩ := Option.map_eq_some_iff.mp hhead
  have htells := ((store_headsTell X cfg id es hran.live).told c hran.stored _ row hrow).2
  have hindex : row.head.entryIndex = asked.getD c.transparencyIndex := htells.index
  have hall := hlisting row.head ⟨rfl, by omega, by rw [hindex]; exact hstart⟩
  have hbound : lastEnd ((call, v) :: rest) ≤ c.transparencyIndex := by
    obtain ⟨z, hz⟩ := Option.isSome_iff_exists.mp
      (List.getLast?_isSome.mpr (List.cons_ne_nil (call, v) rest))
    rw [lastEnd, hz]
    exact (hall.range.2 z (List.mem_of_getLast? hz)).trans (by omega)
  refine ⟨c, start, asked, _, row.head, hran.stored, hranged, rfl, hstart, hlast, hhead, htells,
    hall, ?_, fun x hx hdone => ?_⟩
  · rw [hall.items]
    exact hsettled.sound.evidence_index hbound
  · have hmem : x ∈ (call, v) :: rest := List.mem_of_getLast? hx
    have hmore := (hall.more x hmem).1
    rw [hdone, Json.bool.injEq, eq_comm, decide_eq_false_iff_not, Nat.not_lt] at hmore
    have hend : lastEnd ((call, v) :: rest) = asked.getD c.transparencyIndex := by
      rw [lastEnd, hx]
      exact le_antisymm ((hall.range.2 x hmem).trans (by omega)) (hindex ▸ hmore)
    have hitems := hall.items
    rw [hend] at hitems
    obtain ⟨-, hanchor⟩ := hall.first (call, v) rfl
    have hlinked := hsettled.sound.linkAll hanchor hstart hlast
    refine ⟨hitems, ?_⟩
    rw [hitems]
    exact Option.some.inj (hlinked.symm.trans htells.hash)

namespace Sample

def transparencyPath : String := chainPath ++ "/" ++ chainId ++ "/transparency"

/-- The transparency chain of `genesisRun` is read from index 1 in two pages,
between which the epoch is rotated. -/
def rangeFirst : List Event :=
  genesisRun ++ [.request (readRequest .transparency 10 transparencyPath ""
    [("after_index", "1"), ("limit", "2"), ("transparency_id", "u10007")]) (oracle 1500 2)]

def rangeNext : List Event :=
  perform 2 2 { rotationRequest with token := .ok (token 12 none "POST" epochsPath) } ++
    [.request (readRequest .transparency 11 transparencyPath ""
      [("after_index", "1"), ("cursor", "a30007"), ("limit", "100"),
        ("transparency_id", "u10007")]) (oracle 1500 6)]

theorem rangePages_facts :
    ((replies (World.after crypto cfg rangeFirst) 1 (oracle 1500 3)).any fun x =>
      (replies (World.after crypto cfg (rangeFirst ++ .resume 1 (oracle 1500 3) .none :: rangeNext))
        3 (oracle 1500 7)).any fun y =>
      decide (x.1.chain = chainId) && decide (x.1.route = .transparency) &&
      decide (query x.1.query "cursor" = none) &&
      decide (x.2.get "next_cursor" = .str "a30007") && decide (y.1.chain = chainId) &&
      decide (y.1.route = .transparency) && decide (query y.1.query "cursor" = some "a30007") &&
      decide (y.2.get "has_more" = .bool false) &&
      decide ((a x.2 "items").length = 2 ∧ (a y.2 "items").length = 2)) = true := by
  decide +kernel

end Sample

/-- Two pages of two entries each, which link to the head both of them show. -/
theorem range_pages_two : ∃ (fs : List Event) (x y : Call × Json) (h : Head),
    Paged Sample.crypto Sample.cfg Sample.chainId Sample.rangeFirst [x, y] fs ∧
      (a x.2 "items").length = 2 ∧ (a y.2 "items").length = 2 ∧
      x.2.get "head" = h.toJson ∧ y.2.get "head" = h.toJson ∧
      linkAll Sample.crypto (s x.2 "anchor_hash") ([x, y].flatMap (a ·.2 "items")) =
        h.transparencyHash := by
  obtain ⟨⟨call, v⟩, hx, hy⟩ := (Option.any_eq_true _ _).mp Sample.rangePages_facts
  obtain ⟨⟨call', v'⟩, hy, hfacts⟩ := (Option.any_eq_true _ _).mp hy
  simp only [Bool.and_eq_true, decide_eq_true_eq] at hfacts
  obtain ⟨⟨⟨⟨⟨⟨⟨⟨hchain, hroute⟩, hfirst⟩, hnext⟩, hchain'⟩, hroute'⟩, hcursor⟩, hdone⟩, hlength,
    hlength'⟩ := hfacts
  have hpaged : Paged Sample.crypto Sample.cfg Sample.chainId Sample.rangeFirst
      [(call, v), (call', v')] (.resume 1 (Sample.oracle 1500 3) .none :: Sample.rangeNext ++
        [.resume 3 (Sample.oracle 1500 7) .none]) :=
    .next (hchain ▸ Sample.replied hx) hnext hcursor (hroute'.trans hroute.symm)
      (.last (hchain' ▸ Sample.replied hy))
  obtain ⟨c, start, asked, last, h, -, -, -, -, -, -, -, hlisting, -, hall⟩ :=
    range_pages Sample.crypto Sample.cfg Sample.chainId hpaged hroute hfirst
  exact ⟨_, _, _, h, hpaged, hlength, hlength', hlisting.head _ (by simp),
    hlisting.head _ (by simp), (hall _ rfl hdone).2⟩

end PallaSync
