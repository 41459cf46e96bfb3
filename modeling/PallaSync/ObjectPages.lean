import PallaSync.Listings
import PallaSync.Parts
import PallaSync.Texts

/-!
# Pages of objects

The devices, the epochs and the snapshots of a chain are listed in pages of
objects in the order of their identifiers.
-/

namespace PallaSync

open Atomic Machine Keyset

/-! ## The order of a listing -/

/-- An epoch is stored under its number. -/
def Canonical (kind : Kind) (id : String) : Prop := kind = .epoch → ∃ k : Nat, id = toString k

section Order

theorem castSigned_toString (k : Nat) : castSigned (toString k) = k := by
  unfold castSigned
  split
  · rename_i rest hlist
    have hmem : '-' ∈ (Nat.repr k).toList := by
      rw [show (Nat.repr k).toList = '-' :: rest from hlist]
      exact List.mem_cons_self
    rw [Nat.toList_repr] at hmem
    have hdigit := Nat.isDigit_of_mem_toDigits (by decide) (by decide) hmem
    exact absurd hdigit (by decide)
  · rw [castInteger_toString]

theorem keyLt_strict (kind : Kind) : Strict (keyLt kind) (Canonical kind) where
  irrefl x := by
    unfold keyLt
    split
    · simp
    · exact Json.textLt_irrefl x
  trans {x y z} hxy hyz := by
    unfold keyLt at hxy hyz ⊢
    split
    · rename_i hk
      rw [if_pos hk, decide_eq_true_eq] at hxy hyz
      exact decide_eq_true (lt_trans hxy hyz)
    · rename_i hk
      rw [if_neg hk] at hxy hyz
      exact Json.textLt_trans hxy hyz
  total {x y} hx hy hxy hyx := by
    unfold keyLt at hxy hyx
    split at hxy
    · rename_i hk
      rw [if_pos hk, decide_eq_false_iff_not] at hyx
      rw [decide_eq_false_iff_not] at hxy
      obtain ⟨i, rfl⟩ := hx hk
      obtain ⟨j, rfl⟩ := hy hk
      rw [castSigned_toString, castSigned_toString] at hxy hyx
      have he : i = j := by omega
      rw [he]
    · rename_i hk
      rw [if_neg hk] at hyx
      obtain h | h | h := Json.textLt_or_eq x y
      · rw [hxy] at h; cases h
      · exact h
      · rw [hyx] at h; cases h

theorem keyLt_negTrans {kind : Kind} {x y z : String} (hyx : keyLt kind y x = false)
    (hzy : keyLt kind z y = false) : keyLt kind z x = false := by
  unfold keyLt at hyx hzy ⊢
  split
  · rename_i hk
    rw [if_pos hk, decide_eq_false_iff_not] at hyx hzy
    rw [decide_eq_false_iff_not]
    omega
  · rename_i hk
    rw [if_neg hk] at hyx hzy
    have hxy : Json.textLe x y = true := by rw [Json.textLe, hyx]; rfl
    have hyz : Json.textLe y z = true := by rw [Json.textLe, hzy]; rfl
    have hxz : Json.textLe x z = true :=
      IsTrans.trans (r := fun x y => Json.textLe x y = true) x y z hxy hyz
    rw [Json.textLe, Bool.not_eq_true'] at hxz
    exact hxz

end Order

/-! ## The rows of a listing -/

/-- The objects of a kind that meet a condition, in the order of a listing. -/
def Store.sorted (st : Store) (kind : Kind) (p : ObjectRow → Bool) : List ObjectRow :=
  (st.objects.select fun r => decide (r.kind = kind) && r.body.isSome && p r).insertionSort
    fun x y => keyLt kind y.objectId x.objectId = false

/-- The objects of a kind with a position in the log `logId` up to `head`, or in
another log. -/
def Store.listing (st : Store) (logId : String) (head : Nat) (kind : Kind) : List ObjectRow :=
  st.sorted kind (·.placedUpTo logId head)

/-- Those and the ones that are staged. -/
def Store.listed (st : Store) (logId : String) (head : Nat) (kind : Kind) : List ObjectRow :=
  st.sorted kind fun r => r.logId.isNone || r.placedUpTo logId head

/-- Those of the listing after a key. -/
abbrev Store.listingAfter (st : Store) (logId : String) (head : Nat) (kind : Kind)
    (key : String) : List ObjectRow :=
  above ObjectRow.objectId (keyLt kind) key (st.listing logId head kind)

section Rows

variable {X : Crypto} {st : Store} {c cut : Chain} {kind : Kind} {logId key : String}
  {head : Nat} {r : ObjectRow} {p : ObjectRow → Bool}

theorem Sound.canonical (h : Sound X (st.ledger c)) (hr : r ∈ st.objects)
    (hbody : r.body.isSome) : Canonical r.kind r.objectId := fun hk => by
  obtain ⟨b, hb⟩ := Option.isSome_iff_exists.mp hbody
  obtain ⟨-, hid⟩ := (h.objects r hr).body b hb
  rw [hk] at hid
  exact ⟨n b "epoch", hid.symm⟩

/-- Selected rows of one kind, when they are sorted. -/
theorem select_increasing (h : Sound X (st.ledger c))
    (hp : ∀ r, p r = true → r.kind = kind ∧ r.body.isSome) :
    Increasing ObjectRow.objectId (keyLt kind) ((st.objects.select p).insertionSort fun x y =>
      keyLt kind y.objectId x.objectId = false) := by
  refine (keyLt_strict kind).increasing_insertionSort (fun r hr => ?_) ?_ keyLt_negTrans
  · obtain ⟨hmem, hsel⟩ := Table.mem_select.mp hr
    obtain ⟨hk, hbody⟩ := hp r hsel
    exact hk ▸ h.canonical hmem hbody
  · have hkeys := Table.select_nodup st.objects p
    refine List.pairwise_map.mpr ((List.pairwise_map.mp hkeys).imp_of_mem ?_)
    intro x y hx hy hne he
    have hxk := (hp x (Table.mem_select.mp hx).2).1
    have hyk := (hp y (Table.mem_select.mp hy).2).1
    exact hne (by rw [ObjectRow.key, ObjectRow.key, he, hxk, hyk])

theorem mem_sorted : r ∈ st.sorted kind p ↔
    r ∈ st.objects ∧ r.kind = kind ∧ r.body.isSome ∧ p r = true := by
  rw [Store.sorted, List.mem_insertionSort, Table.mem_select]
  simp [and_assoc]

theorem sorted_increasing (h : Sound X (st.ledger c)) :
    Increasing ObjectRow.objectId (keyLt kind) (st.sorted kind p) :=
  select_increasing h fun r hr => by
    simp only [Bool.and_eq_true, decide_eq_true_eq] at hr
    exact hr.1

/-- The statement of a page returns the listed rows after its key. -/
theorem listedObjects_eq (h : Sound X (st.ledger c)) : listedObjects st c cut kind key =
    above ObjectRow.objectId (keyLt kind) key (st.listed c.logId cut.headSeq kind) := by
  refine (keyLt_strict kind).eq_of_mem_iff (select_increasing h fun r hr => ?_)
    ((sorted_increasing h).sublist List.filter_sublist) fun r => ?_
  · simp only [Bool.and_eq_true, decide_eq_true_eq] at hr
    exact ⟨hr.1.1.1, hr.1.2⟩
  · rw [mem_above, Store.listed, mem_sorted, listedObjects, List.mem_insertionSort,
      Table.mem_select]
    cases hlog : r.logId with
    | none =>
        simp only [Bool.and_eq_true, decide_eq_true_eq, Option.isNone_none, Bool.true_or, and_true]
        tauto
    | some l =>
        simp only [hlog, ObjectRow.placedUpTo, Bool.and_eq_true, decide_eq_true_eq,
          Option.isNone_some, Bool.false_or, Option.any_some]
        tauto

/-- The rows with a position among those the statement returns. -/
theorem listedObjects_placed (h : Sound X (st.ledger c)) :
    (listedObjects st c cut kind key).filter (·.logId.isSome) =
      st.listingAfter c.logId cut.headSeq kind key := by
  have hplaced : (st.listed c.logId cut.headSeq kind).filter (·.logId.isSome) =
      st.listing c.logId cut.headSeq kind := by
    refine (keyLt_strict kind).eq_of_mem_iff ((sorted_increasing h).sublist List.filter_sublist)
      (sorted_increasing h) fun r => ?_
    rw [List.mem_filter, Store.listed, Store.listing, mem_sorted, mem_sorted]
    cases hlog : r.logId with
    | none => simp [ObjectRow.placedUpTo, hlog]
    | some l => simp
  rw [listedObjects_eq h, Store.listingAfter, ← hplaced, above, above, List.filter_filter,
    List.filter_filter]
  exact List.filter_congr fun _ _ => Bool.and_comm _ _

/-- What a page takes of the listing, and what it leaves. -/
theorem listing_split (h : Sound X (st.ledger c)) {taken : List ObjectRow}
    (htaken : taken <+: listedObjects st c cut kind key) :
    st.listingAfter c.logId cut.headSeq kind key = taken.filter (·.logId.isSome) ++
      st.listingAfter c.logId cut.headSeq kind (reached ObjectRow.objectId key taken) := by
  rw [listedObjects_eq h] at htaken
  have hsplit := (keyLt_strict kind).above_eq_append (sorted_increasing h) htaken
  rw [← listedObjects_placed h, ← listedObjects_placed h, ← List.filter_append,
    listedObjects_eq h, listedObjects_eq h]
  exact congrArg _ hsplit

end Rows

/-! ## One page -/

/-- A device as a listing shows it. -/
def deviceItem (cut : Chain) (body : Json) (e : Enlistment) : Json :=
  let revoked := e.revokedSeq.filter (· ≤ cut.headSeq)
  .obj [("device_record", body), ("enrolled_seq", .num e.enrolledSeq),
    ("revoked_seq", Json.ofOptionNat revoked),
    ("status", .str (if revoked.isSome then "revoked" else e.status.text))]

/-- An epoch as a listing shows it, with its log entry. -/
def epochItem (X : Crypto) (body : Json) (entry : LogEntry) (seq : Nat) : Json :=
  .obj [("committed_at_ms", .num (entry.committedAtMs.getD 0)), ("epoch", body),
    ("epoch_hash", .str (X.objectHash body)), ("relay_seq", .num seq)]

/-- What is shown of a row: a device as of a version of the registry, an epoch
with its log entry, anything else as it is. -/
def Store.Shows (X : Crypto) (st : Store) (cut : Chain) (version : Nat) (route : Route)
    (r : ObjectRow) (item : Json) : Prop :=
  match route with
  | .devices => ∃ e, (st.copiesUpTo r.objectId version).getLast? = some e ∧
      item = deviceItem cut (r.body.getD .null) e
  | .epochsGet => ∃ l i entry, r.logId = some l ∧ r.relaySeq = some i ∧
      st.logEntry l i = some entry ∧ item = epochItem X (r.body.getD .null) entry i
  | _ => item = r.body.getD .null

/-- The routes that show every object of their kind. -/
def Route.lists : Route → Bool
  | .devices | .epochsGet | .snapshotsGet => true
  | _ => false

section Scan

variable {X : Crypto} {st : Store} {c : Chain} {p : Page} {route : Route} {param : String}
  {epoch : Option Nat} {rows taken : List ObjectRow} {key key' : String} {count bytes : Nat}
  {items : List Json} {short : Bool}

/-- What a scan of a listing collects: one item for each row of a prefix. -/
structure Collected (X : Crypto) (st : Store) (p : Page) (route : Route) (count : Nat)
    (rows taken : List ObjectRow) (key key' : String) (items : List Json) (short : Bool) :
    Prop where
  front : taken <+: rows
  shown : List.Forall₂ (fun r item =>
    listedItem X st p route r.objectId (r.body.getD .null) = .ok item) taken items
  reached : key' = reached (·.objectId) key taken
  within : items.length + count ≤ max count p.limit
  all : short = false → taken = rows
  stops : short = true → 0 < count ∨ taken ≠ []

theorem scanObjects_ok (hroute : route.lists = true)
    (h : scanObjects X st p route param epoch rows key count bytes = .ok (key', items, short)) :
    ∃ taken, Collected X st p route count rows taken key key' items short := by
  have hown : route ≠ .ownEnvelopes := by
    rintro rfl
    cases hroute
  induction rows generalizing key count bytes items with
  | nil =>
      obtain ⟨rfl, rfl, rfl⟩ := by simpa [scanObjects] using h
      exact ⟨[], List.nil_prefix, .nil, rfl, by simp, fun _ => rfl, nofun⟩
  | cons row rows ih =>
      unfold scanObjects at h
      dsimp only at h
      rw [if_neg fun hc => hown hc.1] at h
      obtain ⟨item, hitem, h⟩ := Check.bind_ok.mp h
      split at h
      · obtain ⟨_, hcount, h⟩ := Check.bind_ok.mp h
        obtain ⟨rfl, rfl, rfl⟩ := by simpa using Check.pure_ok.mp h
        rw [Check.failIf_ok, beq_eq_false_iff_ne] at hcount
        exact ⟨[], List.nil_prefix, .nil, rfl, by simp, nofun,
          fun _ => .inl (Nat.pos_of_ne_zero hcount)⟩
      · rename_i hfull
        obtain ⟨⟨last, rest, more⟩, hrest, h⟩ := Check.bind_ok.mp h
        obtain ⟨rfl, rfl, rfl⟩ := by simpa using Check.pure_ok.mp h
        obtain ⟨taken, hs⟩ := ih hrest
        refine ⟨row :: taken, (List.prefix_cons_inj row).mpr hs.front, .cons hitem hs.shown, ?_, ?_,
          fun hshort => ?_, fun _ => .inr (List.cons_ne_nil _ _)⟩
        · rw [hs.reached, reached_cons]
        · have hwithin := hs.within
          obtain ⟨hcount, -⟩ := not_or.mp hfull
          show rest.length + 1 + count ≤ max count p.limit
          omega
        · rw [hs.all hshort]

theorem deviceWrapper_ok {id : String} {body item : Json}
    (h : deviceWrapper st p id body = .ok item) :
    ∃ e, (st.copiesUpTo id (n p.extra "registry_version")).getLast? = some e ∧
      item = deviceItem p.cut body e := by
  obtain ⟨x, hx, h⟩ := Check.bind_ok.mp h
  obtain rfl := Check.pure_ok.mp h
  refine ⟨x.enlistment, ?_, rfl⟩
  have hlast : (st.registryHistory.filter fun h => h.deviceId == id &&
      decide (h.id ≤ n p.extra "registry_version")).getLast? = some x := Check.require_ok.mp hx
  show (List.map RegistryHistoryRow.enlistment _).getLast? = _
  rw [List.getLast?_map]
  exact congrArg (Option.map _) hlast

theorem epochWrapper_ok {body item : Json} {r : ObjectRow} (h : epochWrapper X st body = .ok item)
    (hr : st.objects.find? (.epoch, toString (n body "epoch")) = some r) :
    ∃ l i entry, r.logId = some l ∧ r.relaySeq = some i ∧ st.logEntry l i = some entry ∧
      item = epochItem X body entry i := by
  simp only [epochWrapper, Check.bind_ok, Check.require_ok, Check.pure_ok] at h
  obtain ⟨o, ho, entry, hentry, i, hi, rfl⟩ := h
  obtain rfl := Option.some.inj (ho.symm.trans hr)
  obtain ⟨l, hl, hentry⟩ := Option.bind_eq_some_iff.mp hentry
  obtain ⟨j, hj, hentry⟩ := Option.bind_eq_some_iff.mp hentry
  obtain rfl := Option.some.inj (hj.symm.trans hi)
  exact ⟨l, j, entry, hl, hj, hentry, rfl⟩

/-- What is shown of a listed row; a device or an epoch that is shown has a
position. -/
theorem listedItem_shows {r : ObjectRow} {item : Json} (hs : Sound X (st.ledger c))
    (hv : st.Versioned) (hp : (st.ledger c).Placed) (hroute : route.lists = true)
    (hr : r ∈ st.objects) (hkind : r.kind = route.listedKind) (hbody : r.body.isSome)
    (h : listedItem X st p route r.objectId (r.body.getD .null) = .ok item) :
    st.Shows X p.cut (n p.extra "registry_version") route r item ∧
      (route ≠ .snapshotsGet → r.logId.isSome) := by
  obtain ⟨body, hb⟩ := Option.isSome_iff_exists.mp hbody
  obtain ⟨-, hid⟩ := (hs.objects r hr).body body hb
  have hfind := Table.find?_of_mem hr
  cases route with
  | devices =>
      obtain ⟨e, he, hitem⟩ := deviceWrapper_ok h
      refine ⟨⟨e, he, hitem⟩, fun _ => ?_⟩
      obtain ⟨o, ho, hlog⟩ := hp r.objectId (Copying.Versioned.known hv (List.mem_of_getLast? he))
      rw [ObjectRow.key, show r.kind = .device from hkind] at hfind
      obtain rfl := Option.some.inj (hfind.symm.trans ho)
      exact hlog
  | epochsGet =>
      rw [show r.kind = .epoch from hkind] at hid
      rw [ObjectRow.key, show r.kind = .epoch from hkind, ← hid] at hfind
      rw [hb, Option.getD_some] at h
      obtain ⟨l, i, entry, hl, hi, hentry, hitem⟩ := epochWrapper_ok h hfind
      refine ⟨⟨l, i, entry, hl, hi, hentry, ?_⟩, fun _ => by rw [hl]; rfl⟩
      rw [hb]
      exact hitem
  | snapshotsGet =>
      exact ⟨(Except.ok.inj h).symm, fun hne => absurd rfl hne⟩
  | _ => cases hroute

end Scan

/-- The key a page starts after. -/
def Page.start (p : Page) (route : Route) : String :=
  if route = .epochsGet ∧ p.key = "" then "-1" else p.key

section Answers

variable {R : Relay} {auth : Auth} {route : Route} {param : String} {q : Query} {v : Json}
  {u u' : Work}

theorem objects_ok (hroute : route.lists = true)
    (h : objects R auth route param q u = .ok (v, u')) :
    ∃ p items rows taken short more key,
      Turned R route q v u u' p { p with key } more ∧
      Finished { p with key } items more false v ∧
      rows <+: listedObjects u.cell.store u.cell.chain p.cut route.listedKind (p.start route) ∧
      (listedObjects u.cell.store u.cell.chain p.cut route.listedKind (p.start route) ≠ [] →
        rows ≠ []) ∧
      Collected R.crypto u.cell.store p route 0 rows taken (p.start route) key items short ∧
      more = (short || !(listedObjects u.cell.store u.cell.chain p.cut route.listedKind
        key).isEmpty) := by
  simp only [objects, bind_ok, lift_ok, failIf_ok, look_ok, chain_ok, check_ok] at h
  obtain ⟨_, _, ⟨-, rfl⟩, _, _, ⟨-, rfl⟩, epoch, _, ⟨-, rfl⟩, _, _, ⟨rfl, rfl⟩, _, _, ⟨-, rfl⟩, p,
    u₁, hpage, c, _, ⟨rfl, rfl⟩, rows₀, _, ⟨rfl, rfl⟩, rows, _, ⟨hrows, rfl⟩,
    ⟨key, items, short⟩, _, ⟨hscan, rfl⟩, more, _, ⟨rfl, rfl⟩, h⟩ := h
  obtain ⟨hcell, -, hfilters, -⟩ := page_opened hpage
  obtain ⟨hnext, hfinished⟩ := finish_ok h
  obtain ⟨hfront, hnonempty⟩ := boundedRows_ok hrows
  obtain ⟨taken, hs⟩ := scanObjects_ok hroute hscan
  rw [hcell] at hfront hnonempty hs hfinished hnext
  refine ⟨p, items, rows, taken, short, _, key,
    ⟨⟨u₁, hfilters ▸ hpage⟩, ⟨rfl, rfl, rfl⟩, ⟨u₁, hcell, hnext⟩⟩, hfinished,
    hfront.trans (List.take_prefix _ _), fun hne => hnonempty rfl ?_, hs, rfl⟩
  rw [Page.start] at hne
  cases hlisted : listedObjects u.cell.store u.cell.chain p.cut route.listedKind
      (if route = .epochsGet ∧ p.key = "" then "-1" else p.key) with
  | nil => exact absurd hlisted hne
  | cons row rest =>
      exact List.cons_ne_nil _ _

/-- A stored object of a kind, under the identifier its body names. -/
def Store.Lodges (st : Store) (kind : Kind) (r : ObjectRow) : Prop :=
  r ∈ st.objects ∧ r.kind = kind ∧ ∃ body, r.body = some body ∧ r.objectId = objectId body kind

/-- The answer of a page that was opened as `p`: one item for each row it took,
from its start on. -/
structure ObjectAnswer (X : Crypto) (st : Store) (c : Chain) (route : Route) (p : Page)
    (taken : List ObjectRow) (more : Bool) (v : Json) : Prop where
  pinned : v.get "log_id" = .str p.cut.logId ∧ v.get "head_seq" = .num p.cut.headSeq
  hasMore : v.get "has_more" = .bool more
  shown : List.Forall₂ (st.Shows X p.cut (n p.extra "registry_version") route) taken (a v "items")
  stored : ∀ r ∈ taken, st.Lodges route.listedKind r
  limit : (a v "items").length ≤ p.limit
  progress : more = true → taken ≠ []
  canonical : ∀ r ∈ taken, Canonical route.listedKind r.objectId
  order : Increasing ObjectRow.objectId (keyLt route.listedKind) taken ∧
    ∀ r ∈ taken, keyLt route.listedKind (p.start route) r.objectId = true
  placed : route ≠ .snapshotsGet → ∀ r ∈ taken, r.logId.isSome
  rows : p.cut.logId = c.logId →
    st.listingAfter p.cut.logId p.cut.headSeq route.listedKind (p.start route) =
      taken.filter (·.logId.isSome) ++ st.listingAfter p.cut.logId p.cut.headSeq route.listedKind
        (reached ObjectRow.objectId (p.start route) taken)
  done : p.cut.logId = c.logId → more = false →
    st.listingAfter p.cut.logId p.cut.headSeq route.listedKind
      (reached ObjectRow.objectId (p.start route) taken) = []

theorem objects_answers {c : Chain} (hroute : route.lists = true)
    (h : objects R auth route param q u = .ok (v, u')) (hchain : u.cell.chain = c)
    (hs : Sound R.crypto (u.cell.store.ledger c)) (hv : u.cell.store.Versioned)
    (hp : (u.cell.store.ledger c).Placed) :
    ∃ p taken more, Turned R route q v u u' p
        { p with key := reached ObjectRow.objectId (p.start route) taken } more ∧
      ObjectAnswer R.crypto u.cell.store c route p taken more v := by
  obtain ⟨p, items, rows, taken, short, more, key, hturned, hfinished, hrows, hnonempty, hscan,
    hmore⟩ := objects_ok hroute h
  obtain rfl := hscan.reached
  subst hchain
  have hitems : a v "items" = items := by
    rw [a, hfinished.items]
    rfl
  have htaken := hscan.front.trans hrows
  have hlisted := htaken
  rw [listedObjects_eq hs] at hlisted
  have hmem : ∀ r ∈ taken, keyLt route.listedKind (p.start route) r.objectId = true ∧
      r ∈ u.cell.store.objects ∧ r.kind = route.listedKind ∧ r.body.isSome := fun r hr => by
    obtain ⟨hr, hkey⟩ := mem_above.mp (hlisted.subset hr)
    obtain ⟨hobj, hkind, hbody, -⟩ := mem_sorted.mp hr
    exact ⟨hkey, hobj, hkind, hbody⟩
  have hshows := ((List.forall₂_and_left _ _).mpr ⟨hmem, hscan.shown⟩).imp
    fun r item hx => listedItem_shows hs hv hp hroute hx.1.2.1 hx.1.2.2.1 hx.1.2.2.2 hx.2
  have hstored : ∀ r ∈ taken, u.cell.store.Lodges route.listedKind r := fun r hr => by
    obtain ⟨-, hobj, hkind, hbody⟩ := hmem r hr
    obtain ⟨body, hb⟩ := Option.isSome_iff_exists.mp hbody
    obtain ⟨-, hid⟩ := (hs.objects r hobj).body body hb
    exact ⟨hobj, hkind, body, hb, hkind ▸ hid.symm⟩
  refine ⟨p, taken, more, hturned, ⟨⟨hfinished.logId, hfinished.headSeq⟩, hfinished.more, ?_,
    hstored, ?_, fun htrue => ?_, fun r hr => ?_, ⟨?_, fun r hr => (hmem r hr).1⟩, fun hsnap => ?_,
    fun hlog => ?_, fun hlog hfalse => ?_⟩⟩
  · rw [hitems]
    exact hshows.imp fun _ _ hx => hx.1
  · rw [hitems]
    have hwithin := hscan.within
    omega
  · rintro rfl
    cases hshort : short with
    | true => exact ((hscan.stops hshort).resolve_left (lt_irrefl 0)) rfl
    | false =>
        have hempty : listedObjects u.cell.store u.cell.chain p.cut route.listedKind
            (p.start route) = [] := by
          by_contra hne
          exact hnonempty hne (hscan.all hshort).symm
        rw [hmore, hshort, reached_nil, hempty] at htrue
        cases htrue
  · obtain ⟨-, hobj, hkind, hbody⟩ := hmem r hr
    exact hkind ▸ hs.canonical hobj hbody
  · exact ((sorted_increasing hs).sublist List.filter_sublist).sublist hlisted.sublist
  · exact ((List.forall₂_and_left _ _).mp (hshows.imp fun r item hx =>
      (⟨hx.2 hsnap, hx.1⟩ : r.logId.isSome ∧ _))).1
  · rw [hlog]
    exact listing_split hs htaken
  · rw [hmore, Bool.or_eq_false_iff, Bool.not_eq_false', List.isEmpty_iff] at hfalse
    rw [hlog, ← listedObjects_placed hs, hfalse.2]
    rfl

end Answers

/-! ## The store of a later page -/

theorem ObjectRow.Later.eq {o o' : ObjectRow} (h : o.Later o') (hkey : o'.key = o.key)
    (hplaced : o.logId.isSome) (hkind : ¬o.kind.removable) : o' = o := by
  obtain ⟨hlog, hseq⟩ := h.placed hplaced
  have hbody : o'.body = o.body := h.body.resolve_right fun hb => hkind hb.2
  have hhash := h.objectHash
  obtain ⟨hk, hid⟩ := Prod.mk.inj hkey
  cases o
  cases o'
  simp_all

theorem placedUpTo_mono {r : ObjectRow} {logId : String} {head head' : Nat} (hle : head ≤ head')
    (h : r.placedUpTo logId head = true) : r.placedUpTo logId head' = true := by
  unfold ObjectRow.placedUpTo at h ⊢
  obtain ⟨l, hl, h⟩ := (Option.any_eq_true _ _).mp h
  refine (Option.any_eq_true _ _).mpr ⟨l, hl, ?_⟩
  rw [Bool.or_eq_true] at h ⊢
  refine h.imp_right fun h => ?_
  obtain ⟨i, hi, hseq⟩ := (Option.any_eq_true _ _).mp h
  exact (Option.any_eq_true _ _).mpr ⟨i, hi, by simp only [decide_eq_true_eq] at hseq ⊢; omega⟩

theorem placedUpTo_isSome {r : ObjectRow} {logId : String} {head : Nat}
    (h : r.placedUpTo logId head = true) : r.logId.isSome := by
  obtain ⟨l, hl, -⟩ := (Option.any_eq_true _ _).mp h
  rw [hl]
  rfl

section Later

variable {X : Crypto} {st st' : Store} {c c' cut : Chain} {kind : Kind} {route : Route}
  {head version : Nat} {r : ObjectRow} {item : Json}

/-- A listing stays as it was. -/
theorem listing_later (hs : Sound X (st.ledger c)) (hs' : Sound X (st'.ledger c'))
    (hg : Grows (st.ledger c) (st'.ledger c')) (hp : Placements (st.ledger c) (st'.ledger c'))
    (hkind : ¬kind.removable) (hhead : head ≤ c.headSeq) :
    st'.listing c.logId head kind = st.listing c.logId head kind := by
  have hlater {o o' : ObjectRow} (ho : st.objects.find? o.key = some o)
      (ho' : st'.objects.find? o.key = some o') (hl : o.Later o') (hk : o.kind = kind)
      (hplaced : o.logId.isSome) : o' = o :=
    hl.eq (Table.key_of_find? ho') hplaced (hk ▸ hkind)
  refine (keyLt_strict kind).eq_of_mem_iff (sorted_increasing hs') (sorted_increasing hs)
    fun r => ?_
  rw [Store.listing, Store.listing, mem_sorted, mem_sorted]
  constructor
  · rintro ⟨hmem, hk, hbody, hplaced⟩
    have hfind := Table.find?_of_mem hmem
    obtain ⟨o, ho, hlog, hseq⟩ := hp.old _ _ hfind (placedUpTo_mono hhead hplaced)
    obtain ⟨o', ho', hl⟩ := hg.objects _ o ho
    rw [Option.some.inj (ho'.symm.trans hfind)] at hl
    have hkey : o.key = r.key := Table.key_of_find? ho
    have he := hlater (hkey ▸ ho) (hkey ▸ hfind) hl ((Prod.mk.inj hkey).1.trans hk)
      (hlog ▸ placedUpTo_isSome hplaced)
    subst he
    exact ⟨Table.mem_of_find? ho, hk, hbody, hplaced⟩
  · rintro ⟨hmem, hk, hbody, hplaced⟩
    have hfind := Table.find?_of_mem hmem
    obtain ⟨o', ho', hl⟩ := hg.objects _ r hfind
    obtain rfl := hlater hfind ho' hl hk (placedUpTo_isSome hplaced)
    exact ⟨Table.mem_of_find? ho', hk, hbody, hplaced⟩

/-- The entry of an object that is there later was there before. -/
theorem Grows.logEntry_before (hg : Grows (st.ledger c) (st'.ledger c'))
    (hs : Sound X (st.ledger c)) (hr : r ∈ st.objects) {l : String} {i : Nat} {e : LogEntry}
    (hl : r.logId = some l) (hi : r.relaySeq = some i) (he : st'.logEntry l i = some e) :
    st.logEntry l i = some e := by
  obtain ⟨rr, j, hrr, hlog, hseq, hj⟩ := hs.placed hr hl
  obtain rfl := Option.some.inj (hj.symm.trans hi)
  obtain ⟨⟨row, hrow, -⟩, -⟩ := (hs.receipts rr (Table.mem_of_find? hrr)).position j hseq
  rw [hlog] at hrow
  obtain ⟨row', hrow', hlater⟩ := hg.log _ row hrow
  rw [Store.ledger_log] at hrow hrow'
  rw [Store.logEntry, hrow', Option.bind_some] at he
  rw [Store.logEntry, hrow, Option.bind_some]
  obtain hsame | ⟨hnone, -⟩ := hlater.entry
  · rw [← hsame, he]
  · rw [hnone] at he
    cases he

/-- What is shown later of a row there was is what was shown of it before. -/
theorem Store.Shows.before (h : st'.Shows X cut version route r item) (hs : Sound X (st.ledger c))
    (hg : Grows (st.ledger c) (st'.ledger c')) (hv : st'.Versioned)
    (hfront : st.registryHistory <+: st'.registryHistory)
    (hversion : version ≤ st.registryHistory.length) (hr : route ≠ .snapshotsGet → r ∈ st.objects)
    (hroute : route.lists = true) : st.Shows X cut version route r item := by
  cases route with
  | devices =>
      obtain ⟨e, he, hitem⟩ := h
      have hlast := congrArg List.getLast?
        (Copying.Versioned.upTo_eq hv hfront hversion r.objectId)
      exact ⟨e, hlast.symm.trans he, hitem⟩
  | epochsGet =>
      obtain ⟨l, i, e, hl, hi, he, hitem⟩ := h
      exact ⟨l, i, e, hl, hi, hg.logEntry_before hs (hr (by decide)) hl hi he, hitem⟩
  | snapshotsGet => exact h
  | _ => cases hroute

end Later

/-! ## All pages -/

/-- The rows and the items of pages from a start on: every row once, in the
order of the keys, and up to the last of them all of the listing. -/
structure Store.Lists (X : Crypto) (st : Store) (cut : Chain) (version : Nat) (route : Route)
    (start : String) (taken : List ObjectRow) (items : List Json) : Prop where
  shown : List.Forall₂ (st.Shows X cut version route) taken items
  order : Increasing ObjectRow.objectId (keyLt route.listedKind) taken
  after : ∀ r ∈ taken, keyLt route.listedKind start r.objectId = true
  placed : route ≠ .snapshotsGet → ∀ r ∈ taken, r.logId.isSome
  rows : st.listingAfter cut.logId cut.headSeq route.listedKind start =
    taken.filter (·.logId.isSome) ++ st.listingAfter cut.logId cut.headSeq route.listedKind
      (reached ObjectRow.objectId start taken)

/-- There is nothing after the last page. -/
def Store.Ended (st : Store) (cut : Chain) (route : Route) (start : String)
    (taken : List ObjectRow) : Prop :=
  st.listingAfter cut.logId cut.headSeq route.listedKind
    (reached ObjectRow.objectId start taken) = []

/-- A page shows objects of the state it was answered in, which is one of the
states from `es` to `es ++ fs`. -/
def PageLodged (X : Crypto) (cfg : RelayConfig) (id : String) (es fs : List Event) (cut : Chain)
    (version : Nat) (route : Route) (page : Call × Json) (rows : List ObjectRow) : Prop :=
  ∃ front ev, front ++ [ev] <+: fs ∧
    Replied X (World.after X cfg (es ++ front)) id ev page.1 page.2 ∧
    List.Forall₂ ((storeAfter X cfg (es ++ front) id).Shows X cut version route) rows
      (a page.2 "items") ∧
    ∀ r ∈ rows, (storeAfter X cfg (es ++ front) id).Lodges route.listedKind r

/-- Pages that list the objects of a route as of `cut`. -/
structure ObjectListing (X : Crypto) (cfg : RelayConfig) (id : String) (es fs : List Event)
    (st : Store) (cut : Chain) (version : Nat) (route : Route) (start : String)
    (pages : List (Call × Json)) : Prop where
  /-- Every page shows the cut of the first one. -/
  pinned : ∀ x ∈ pages, x.2.get "log_id" = .str cut.logId ∧
    x.2.get "head_seq" = .num cut.headSeq
  /-- A page that has a next one is not empty. -/
  more : ∀ x ∈ pages, ∃ more, x.2.get "has_more" = .bool more ∧
    (x.2.get "next_cursor" = .null ↔ more = false) ∧ (more = true → a x.2 "items" ≠ [])
  /-- The items are those of a first part of the listing, all of it at the end. -/
  listed : ∃ parts : List (List ObjectRow),
    List.Forall₂ (PageLodged X cfg id es fs cut version route) pages parts ∧
    st.Lists X cut version route start parts.flatten (pages.flatMap (a ·.2 "items")) ∧
    ∀ x, pages.getLast? = some x → x.2.get "has_more" = .bool false →
      st.Ended cut route start parts.flatten
  limit : ∀ x ∈ pages, ∃ limit, Limited cfg.limits x.1.query limit ∧
    (a x.2 "items").length ≤ limit
  size : ∀ x ∈ pages, Store.size X x.2 ≤ responseMax

section Pages

variable {X : Crypto} {cfg : RelayConfig} {id : String} {es fs : List Event} {ev : Event}
  {call : Call} {v : Json} {pages : List (Call × Json)}

theorem Route.listedKind_kept {route : Route} (h : route.lists = true) :
    ¬route.listedKind.removable := by
  unfold Kind.removable
  revert h
  cases route <;> decide

/-- A page of a listing that the run answers, with what it was opened as. -/
structure ObjectPage (X : Crypto) (cfg : RelayConfig) (id : String) (es : List Event)
    (ev : Event) (call : Call) (v : Json) (c : Chain) (u u' : Work) (p : Page)
    (taken : List ObjectRow) (more : Bool) : Prop where
  ran : ∃ m, Ran X (World.after X cfg es) id ev c m v u u'
  turned : Turned ((World.after X cfg es).relay X) call.route call.query v u u' p
    { p with key := reached ObjectRow.objectId (p.start call.route) taken } more
  answer : ObjectAnswer X u.cell.store c call.route p taken more v
  versioned : u.cell.store.Versioned

theorem Ran.versioned {c : Chain} {m : Tx Json} {u u' : Work}
    (h : Ran X (World.after X cfg es) id ev c m v u u') : u.cell.store.Versioned := by
  rw [h.start]
  exact store_versioned X cfg es id h.live

theorem Replied.objectPage (h : Replied X (World.after X cfg es) id ev call v)
    (hroute : call.route.lists = true) :
    ∃ c u u' p taken more, ObjectPage X cfg id es ev call v c u u' p taken more := by
  have hplain : call.route.plain = true := by
    revert hroute
    cases call.route <;> decide
  obtain ⟨body, c, u, u', hran⟩ := h.ran hplain
  have hread : objects ((World.after X cfg es).relay X) call.auth call.route call.param call.query
      u = .ok (v, u') := by
    have hrun := hran.run
    unfold readRoute at hrun
    dsimp only at hrun
    generalize call.route = route at hroute hrun ⊢
    cases route <;> first | exact hrun | cases hroute
  have hplaced : (u.cell.store.ledger c).Placed := by
    rw [hran.start]
    exact ((store_placed X cfg es id).ledger hran.live hran.stored).2
  obtain ⟨p, taken, more, hturned, hanswer⟩ := objects_answers hroute hread
    (congrArg Cell.chain hran.start) hran.settled.sound hran.versioned hplaced
  exact ⟨c, u, u', p, taken, more, ⟨_, hran⟩, hturned, hanswer, hran.versioned⟩

/-- A page whose cut is in the current generation. -/
structure Page.InListing (p : Page) (st : Store) (c : Chain) : Prop where
  logId : p.cut.logId = c.logId
  generation : p.cut.generation = c.generation
  headSeq : p.cut.headSeq ≤ c.headSeq
  version : n p.extra "registry_version" ≤ st.registryHistory.length

theorem ObjectPage.one {c : Chain} {u u' : Work} {p : Page} {taken : List ObjectRow} {more : Bool}
    (h : ObjectPage X cfg id es ev call v c u u' p taken more)
    (hin : p.InListing u.cell.store c) :
    u.cell.store.Lists X p.cut (n p.extra "registry_version") call.route (p.start call.route)
        taken (a v "items") ∧
      (more = false → u.cell.store.Ended p.cut call.route (p.start call.route) taken) := by
  have hanswer := h.answer
  exact ⟨⟨hanswer.shown, hanswer.order.1, hanswer.order.2, hanswer.placed,
    hanswer.rows hin.logId⟩, hanswer.done hin.logId⟩

/-- The rows of a page and of the pages after it. -/
theorem Store.Lists.append {st st' : Store} {c c' cut : Chain} {version : Nat} {route : Route}
    {start : String} {taken taken' : List ObjectRow} {items items' : List Json}
    (h : st.Lists X cut version route start taken items)
    (h' : st'.Lists X cut version route (reached ObjectRow.objectId start taken) taken' items')
    (hs : Sound X (st.ledger c)) (hs' : Sound X (st'.ledger c'))
    (hg : Grows (st.ledger c) (st'.ledger c')) (hp : Placements (st.ledger c) (st'.ledger c'))
    (hv : st'.Versioned) (hfront : st.registryHistory <+: st'.registryHistory)
    (hversion : version ≤ st.registryHistory.length) (hlog : cut.logId = c.logId)
    (hhead : cut.headSeq ≤ c.headSeq) (hroute : route.lists = true) :
    st.Lists X cut version route start (taken ++ taken') (items ++ items') ∧
      (st'.Ended cut route (reached ObjectRow.objectId start taken) taken' →
        st.Ended cut route start (taken ++ taken')) := by
  have hsame : st'.listing cut.logId cut.headSeq route.listedKind =
      st.listing cut.logId cut.headSeq route.listedKind := by
    rw [hlog]
    exact listing_later hs hs' hg hp (Route.listedKind_kept hroute) hhead
  have hrows := h'.rows
  rw [Store.listingAfter, Store.listingAfter, hsame] at hrows
  have hmem : ∀ r ∈ taken', route ≠ .snapshotsGet → r ∈ st.objects := fun r hr hsnap => by
    have hr : r ∈ above ObjectRow.objectId (keyLt route.listedKind)
        (reached ObjectRow.objectId start taken)
        (st.listing cut.logId cut.headSeq route.listedKind) := by
      rw [hrows]
      exact List.mem_append_left _ (List.mem_filter.mpr ⟨hr, h'.placed hsnap r hr⟩)
    exact (mem_sorted.mp (mem_above.mp hr).1).1
  obtain ⟨hfirst, hlast⟩ := (keyLt_strict route.listedKind).le_reached h.order h.after
  refine ⟨⟨List.rel_append h.shown ?_, List.pairwise_append.mpr ⟨h.order, h'.order, ?_⟩, ?_, ?_,
    ?_⟩, fun hended => ?_⟩
  · exact ((List.forall₂_and_left _ _).mpr ⟨hmem, h'.shown⟩).imp fun r item hx =>
      hx.2.before hs hg hv hfront hversion hx.1 hroute
  · intro x hx y hy
    have hy := h'.after y hy
    obtain he | hlt := hlast x hx
    · rwa [he]
    · exact (keyLt_strict _).trans hlt hy
  · refine fun r hr => (List.mem_append.mp hr).elim (h.after r) fun hr => ?_
    have hr := h'.after r hr
    obtain he | hlt := hfirst
    · rwa [he] at hr
    · exact (keyLt_strict _).trans hlt hr
  · exact fun hsnap r hr => (List.mem_append.mp hr).elim (h.placed hsnap r) (h'.placed hsnap r)
  · rw [h.rows, List.filter_append, List.append_assoc, reached_append]
    exact congrArg _ hrows
  · rw [Store.Ended, Store.listingAfter, hsame] at hended
    rw [Store.Ended, reached_append]
    exact hended

/-- A page shows objects of its own state. -/
theorem ObjectPage.lodged {c : Chain} {u u' : Work} {p : Page} {taken : List ObjectRow}
    {more : Bool} (h : ObjectPage X cfg id es ev call v c u u' p taken more)
    (hreplied : Replied X (World.after X cfg es) id ev call v) (fs : List Event) :
    PageLodged X cfg id es (ev :: fs) p.cut (n p.extra "registry_version") call.route (call, v)
      taken := by
  obtain ⟨m, hran⟩ := h.ran
  have hstored := h.answer.stored
  have hshown := h.answer.shown
  rw [hran.start] at hstored hshown
  refine ⟨[], ev, ⟨fs, rfl⟩, ?_, ?_, ?_⟩
  all_goals rw [List.append_nil]
  · exact hreplied
  · exact hshown
  · exact hstored

/-- What is said of the pages after a gap, said from the first page on. -/
theorem PageLodged.later {gap : List Event} {cut : Chain} {version : Nat} {route : Route}
    {page : Call × Json} {rows : List ObjectRow}
    (h : PageLodged X cfg id (es ++ gap) fs cut version route page rows) :
    PageLodged X cfg id es (gap ++ fs) cut version route page rows := by
  obtain ⟨front, ev, hfront, hreplied, hshown, hrows⟩ := h
  rw [List.append_assoc] at hreplied hshown hrows
  refine ⟨gap ++ front, ev, ?_, hreplied, hshown, hrows⟩
  rw [List.append_assoc]
  exact (List.prefix_append_right_inj gap).mpr hfront

theorem ObjectPage.listing {c : Chain} {u u' : Work} {p : Page} {taken : List ObjectRow}
    {more : Bool} (h : ObjectPage X cfg id es ev call v c u u' p taken more)
    (hreplied : Replied X (World.after X cfg es) id ev call v)
    (hin : p.InListing u.cell.store c) (fs : List Event) :
    ObjectListing X cfg id es (ev :: fs) u.cell.store p.cut (n p.extra "registry_version")
      call.route (p.start call.route) [(call, v)] := by
  have hanswer := h.answer
  obtain ⟨hlists, hended⟩ := h.one hin
  have hflat : [taken].flatten = taken := List.flatten_singleton
  refine ⟨?_, ?_, ⟨[taken], .cons (h.lodged hreplied fs) .nil, ?_, fun x hx hdone => ?_⟩, ?_, ?_⟩
  all_goals try rw [List.forall_mem_singleton]
  · exact hanswer.pinned
  · refine ⟨more, hanswer.hasMore, h.turned.next_null, fun hmore => ?_⟩
    have hlen := hanswer.shown.length_eq
    have hsome := List.length_pos_of_ne_nil (hanswer.progress hmore)
    exact List.ne_nil_of_length_pos (hlen ▸ hsome)
  · rw [List.flatMap_singleton, hflat]
    exact hlists
  · obtain rfl := Option.some.inj hx
    rw [hflat]
    exact hended (Json.bool.inj (hanswer.hasMore.symm.trans hdone))
  · have hlimits : ((World.after X cfg es).relay X).cfg.limits = cfg.limits :=
      (after_bounded X cfg es).limits
    exact ⟨p.limit, hlimits ▸ h.turned.limited, hanswer.limit⟩
  · obtain ⟨m, hran⟩ := h.ran
    exact hran.size

/-- A page that is resumed starts after the last row that was taken. -/
theorem ObjectAnswer.start_resumed {st : Store} {c : Chain} {route : Route} {p p' : Page}
    {taken : List ObjectRow} (h : ObjectAnswer X st c route p taken true v)
    (hkey : p'.key = reached ObjectRow.objectId (p.start route) taken) :
    p'.start route = reached ObjectRow.objectId (p.start route) taken := by
  obtain ⟨r, hr⟩ := Option.isSome_iff_exists.mp (List.getLast?_isSome.mpr (h.progress rfl))
  have hreached : reached ObjectRow.objectId (p.start route) taken = r.objectId := by
    rw [reached, hr]
    rfl
  rw [Page.start, hkey, hreached, if_neg]
  rintro ⟨hroute, hempty⟩
  subst hroute
  obtain ⟨k, hk⟩ := h.canonical r (List.mem_of_getLast? hr) rfl
  rw [hk] at hempty
  exact Nat.repr_ne_empty hempty

/-- Following the cursors, from a page on. -/
theorem Paged.objectListing (h : Paged X cfg id es pages fs) :
    ∀ call v rest, pages = (call, v) :: rest → call.route.lists = true →
      ∃ ev c u u' p taken more, ObjectPage X cfg id es ev call v c u u' p taken more ∧
        (p.InListing u.cell.store c →
          ObjectListing X cfg id es fs u.cell.store p.cut (n p.extra "registry_version")
            call.route (p.start call.route) pages) := by
  induction h with
  | last h =>
      rintro call v rest hpages hroute
      obtain ⟨he, rfl⟩ := List.cons.inj hpages
      obtain ⟨rfl, rfl⟩ := Prod.mk.inj he
      obtain ⟨c, u, u', p, taken, more, hpage⟩ := h.objectPage hroute
      exact ⟨_, c, u, u', p, taken, more, hpage, fun hin => hpage.listing h hin []⟩
  | @next es ev call v token gap call' v' pages fs h hnext hcursor hsame' hrest ih =>
      rintro call v rest hpages hroute
      obtain ⟨he, rfl⟩ := List.cons.inj hpages
      obtain ⟨rfl, rfl⟩ := Prod.mk.inj he
      obtain ⟨c, u, u', p, taken, more, hpage⟩ := h.objectPage hroute
      obtain ⟨ev', c', t, t', p', taken', more', hpage', hlisting⟩ :=
        ih _ _ _ rfl (by rw [hsame']; exact hroute)
      refine ⟨_, c, u, u', p, taken, more, hpage, fun hin => ?_⟩
      obtain ⟨m, hran⟩ := hpage.ran
      obtain ⟨m', hran'⟩ := hpage'.ran
      obtain ⟨rfl, hfrom, hlog, hgen, -⟩ :=
        Turned.resumed hran hran' hpage.turned hpage'.turned hnext hcursor
      have hcut : p'.cut = p.cut := hfrom.cut
      have hextra : p'.extra = p.extra := hfrom.extra
      have hstart : p'.start call.route = reached ObjectRow.objectId (p.start call.route) taken :=
        hpage.answer.start_resumed hfrom.key
      have hsamelog : c'.logId = c.logId := by rw [← hlog, hcut, hin.logId]
      have hsamegen : c'.generation = c.generation := by rw [← hgen, hcut, hin.generation]
      have hearlier := hran.earlier hran'
      have hhead := hearlier.headSeq_le hran.settled.sound hran'.settled.sound hsamelog
      have hfront : u.cell.store.registryHistory <+: t.cell.store.registryHistory := by
        rw [hran.start, hran'.start]
        exact (store_accrues X cfg es _ id hran'.live).versions
      have hplacements : Placements (u.cell.store.ledger c) (t.cell.store.ledger c') := by
        obtain ⟨-, hkeeps⟩ := store_renewal X cfg es (ev :: gap) id hran'.live
        obtain ⟨c₁, hc₁, hrenewal⟩ := hkeeps c hran.stored
        obtain rfl := Option.some.inj (hc₁.symm.trans hran'.stored)
        rw [hran.start, hran'.start]
        exact hrenewal.placements hsamegen
      have hin' : p'.InListing t.cell.store c' :=
        ⟨hlog, hgen, hcut ▸ hin.headSeq.trans hhead,
          hextra ▸ hin.version.trans hfront.length_le⟩
      have hone := hpage.listing h hin (gap ++ fs)
      have htail := hlisting hin'
      rw [hcut, hextra, hsame', hstart] at htail
      obtain ⟨hlists, -⟩ := hpage.one hin
      obtain ⟨rest, hlodged, hrestlists, hended⟩ := htail.listed
      obtain ⟨hall, hlast⟩ := hlists.append hrestlists hran.settled.sound hran'.settled.sound
        hearlier.grows hplacements hpage'.versioned hfront hin.version hin.logId hin.headSeq hroute
      have hlater (page : Call × Json) (rows : List ObjectRow)
          (hpage : PageLodged X cfg id (es ++ ev :: gap) fs p.cut (n p.extra "registry_version")
            call.route page rows) :
          PageLodged X cfg id es (ev :: gap ++ fs) p.cut (n p.extra "registry_version") call.route
            page rows := hpage.later
      refine ⟨List.forall_mem_cons.mpr ⟨hone.pinned _ List.mem_cons_self, htail.pinned⟩,
        List.forall_mem_cons.mpr ⟨hone.more _ List.mem_cons_self, htail.more⟩,
        ⟨taken :: rest, .cons (hpage.lodged h (gap ++ fs)) (hlodged.imp hlater), ?_,
          fun x hx hdone => hlast (hended x hx hdone)⟩,
        List.forall_mem_cons.mpr ⟨hone.limit _ List.mem_cons_self, htail.limit⟩,
        List.forall_mem_cons.mpr ⟨hone.size _ List.mem_cons_self, htail.size⟩⟩
      rw [List.flatMap_cons]
      exact hall

end Pages

/-- The pages of a listing from the first one on. -/
theorem Paged.objectPages {X : Crypto} {cfg : RelayConfig} {id : String} {es fs : List Event}
    {call : Call} {v : Json} {rest : List (Call × Json)}
    (hpaged : Paged X cfg id es ((call, v) :: rest) fs) (hroute : call.route.lists = true)
    (hfirst : query call.query "cursor" = none) {c : Chain}
    (hc : (storeAfter X cfg es id).chain = some c) :
    Settled X id ((storeAfter X cfg es id).ledger c) ∧ (storeAfter X cfg es id).Versioned ∧
      ((storeAfter X cfg es id).ledger c).Placed ∧
      ObjectListing X cfg id es fs (storeAfter X cfg es id) c
        (storeAfter X cfg es id).registryHistory.length call.route
        (if call.route = .epochsGet then "-1" else "") ((call, v) :: rest) := by
  obtain ⟨ev, c', u, u', p, taken, more, hpage, hlisting⟩ :=
    hpaged.objectListing call v rest rfl hroute
  obtain ⟨m, hran⟩ := hpage.ran
  obtain rfl := Option.some.inj (hran.stored.symm.trans hc)
  obtain ⟨u₁, hopened⟩ := hpage.turned.opened
  obtain ⟨hcut, hkey, -, hextra⟩ := page_first hopened hfirst
  have hstart : p.start call.route = if call.route = .epochsGet then "-1" else "" := by
    rw [Page.start, hkey]
    simp
  have hversion : n p.extra "registry_version" = u.cell.store.registryHistory.length := by
    rw [hextra]
    rfl
  have hchain : p.cut = c' := hcut.trans (congrArg Cell.chain hran.start)
  have hall := hlisting ⟨by rw [hchain], by rw [hchain], by rw [hchain], hversion.le⟩
  have hsettled := hran.settled
  have hversioned := hran.versioned
  rw [hchain, hstart, hversion] at hall
  rw [show u.cell.store = storeAfter X cfg es id by rw [hran.start]] at hall hsettled hversioned
  exact ⟨hsettled, hversioned, ((store_placed X cfg es id).ledger hran.live hran.stored).2, hall⟩

section Complete

variable {X : Crypto} {c : Chain} {st : Store} {r : ObjectRow}

theorem textLt_empty {x : String} (hx : x ≠ "") : Json.textLt "" x = true := by
  obtain h | rfl | h := Json.textLt_or_eq "" x
  · exact h
  · exact absurd rfl hx
  · simp [Json.textLt, Json.charsLt] at h

/-- An object with a position is in the listing of the chain as it stands. -/
theorem mem_listing_now (hs : Sound X (st.ledger c)) (hr : r ∈ st.objects)
    (hkind : ¬r.kind.removable) (hplaced : r.logId.isSome) :
    r ∈ st.listing c.logId c.headSeq r.kind := by
  obtain ⟨l, hl⟩ := Option.isSome_iff_exists.mp hplaced
  obtain ⟨rr, i, hrr, hlog, hseq, hi⟩ := hs.placed hr hl
  refine mem_sorted.mpr ⟨hr, rfl, ?_, ?_⟩
  · cases hbody : r.body with
    | some b => rfl
    | none => exact absurd ((hs.objects r hr).removed hbody) hkind
  · rw [ObjectRow.placedUpTo, hl, Option.any_some, Bool.or_eq_true, bne_iff_ne, hi, Option.any_some]
    by_cases hsame : l = c.logId
    · obtain ⟨⟨row, hrow, -⟩, -⟩ := (hs.receipts rr (Table.mem_of_find? hrr)).position i hseq
      rw [hlog, hsame] at hrow
      exact .inr (decide_eq_true ((hs.log_dom i).mp (Option.isSome_iff_exists.mpr ⟨row, hrow⟩)).2)
    · exact .inl hsame

/-- The rows with a position that were taken are in the listing. -/
theorem Store.Lists.mem {cut : Chain} {version : Nat} {route : Route} {start : String}
    {taken : List ObjectRow} {items : List Json}
    (h : st.Lists X cut version route start taken items) (hr : r ∈ taken)
    (hplaced : r.logId.isSome) : r ∈ st.objects ∧ r.kind = route.listedKind ∧ r.body.isSome := by
  have hin : r ∈ st.listingAfter cut.logId cut.headSeq route.listedKind start := by
    rw [h.rows]
    exact List.mem_append_left _ (List.mem_filter.mpr ⟨hr, hplaced⟩)
  obtain ⟨hobj, hkind, hbody, -⟩ := mem_sorted.mp (mem_above.mp hin).1
  exact ⟨hobj, hkind, hbody⟩

/-- At the end all objects with a position were taken. -/
theorem Store.Lists.complete {version : Nat} {route : Route} {start : String}
    {taken : List ObjectRow} {items : List Json}
    (h : st.Lists X c version route start taken items) (hended : st.Ended c route start taken)
    (hs : Sound X (st.ledger c)) (hroute : route.lists = true) (hr : r ∈ st.objects)
    (hkind : r.kind = route.listedKind) (hplaced : r.logId.isSome)
    (hstart : keyLt route.listedKind start r.objectId = true) : r ∈ taken := by
  have hnow := mem_listing_now hs hr (hkind ▸ Route.listedKind_kept hroute) hplaced
  rw [hkind] at hnow
  have hin := mem_above.mpr ⟨hnow, hstart⟩
  rw [← Store.listingAfter, h.rows, show _ = [] from hended, List.append_nil] at hin
  exact (List.mem_filter.mp hin).1

/-- The devices that are shown are as the registry has them. -/
theorem Store.Lists.deviceRows {cut : Chain} {start : String} {taken : List ObjectRow}
    {items : List Json}
    (h : st.Lists X cut st.registryHistory.length .devices start taken items)
    (hv : st.Versioned) : List.Forall₂ (fun r item => ∃ row,
      st.registry.find? r.objectId = some row ∧ st.objects.find? (.device, r.objectId) = some r ∧
        item = deviceItem cut (r.body.getD .null) row.enlistment) taken items := by
  refine ((List.forall₂_and_left _ _).mpr ⟨fun r hr => h.mem hr (h.placed (by decide) r hr),
    h.shown⟩).imp ?_
  rintro r item ⟨⟨hr, hkind, -⟩, e, he, hitem⟩
  rw [Store.copiesUpTo, Copying.Versioned.upTo_length hv, hv.current] at he
  obtain ⟨row, hrow, rfl⟩ := Option.map_eq_some_iff.mp he
  have hfind := Table.find?_of_mem hr
  rw [ObjectRow.key, show r.kind = .device from hkind] at hfind
  exact ⟨row, hrow, hfind, hitem⟩

end Complete

/-- The pages of a read, apart from their items: all show the pinned cut, one
that has a next page is not empty, and none is larger than it may be. -/
def Turning (X : Crypto) (cfg : RelayConfig) (cut : Chain) (pages : List (Call × Json)) : Prop :=
  ∀ x ∈ pages, (x.2.get "log_id" = .str cut.logId ∧ x.2.get "head_seq" = .num cut.headSeq) ∧
    (∃ more, x.2.get "has_more" = .bool more ∧ (x.2.get "next_cursor" = .null ↔ more = false) ∧
      (more = true → a x.2 "items" ≠ [])) ∧
    (∃ limit, Limited cfg.limits x.1.query limit ∧ (a x.2 "items").length ≤ limit) ∧
    Store.size X x.2 ≤ responseMax

theorem ObjectListing.turning {X : Crypto} {cfg : RelayConfig} {id : String} {es fs : List Event}
    {st : Store} {cut : Chain} {version : Nat} {route : Route} {start : String}
    {pages : List (Call × Json)}
    (h : ObjectListing X cfg id es fs st cut version route start pages) : Turning X cfg cut pages :=
  fun x hx => ⟨h.pinned x hx, h.more x hx, h.limit x hx, h.size x hx⟩

namespace Sample

/-- Task `i` answers a first page that names the cursor `token`, and task `j`,
after the events between them, the last page, which goes on from it. -/
def readsTwice (es : List Event) (i : Nat) (o : Oracle) (gap : List Event) (j : Nat) (o' : Oracle)
    (route : Route) (token : String) : Bool :=
  (replies (World.after crypto cfg es) i o).any fun x =>
    (replies (World.after crypto cfg (es ++ .resume i o .none :: gap)) j o').any fun y =>
      decide (x.1.chain = chainId) && decide (x.1.route = route) &&
      decide (query x.1.query "cursor" = none) && decide (x.2.get "next_cursor" = .str token) &&
      decide (y.1.chain = chainId) && decide (y.1.route = route) &&
      decide (query y.1.query "cursor" = some token) && decide (y.2.get "has_more" = .bool false)

theorem reads_twice {es gap : List Event} {i j : Nat} {o o' : Oracle} {route : Route}
    {token : String} (h : readsTwice es i o gap j o' route token = true) :
    ∃ (call call' : Call) (v v' : Json) (fs : List Event),
      Paged crypto cfg chainId es [(call, v), (call', v')] fs ∧ call.route = route ∧
      query call.query "cursor" = none ∧ v'.get "has_more" = .bool false := by
  obtain ⟨⟨call, v⟩, hx, h⟩ := (Option.any_eq_true _ _).mp h
  obtain ⟨⟨call', v'⟩, hy, h⟩ := (Option.any_eq_true _ _).mp h
  simp only [Bool.and_eq_true, decide_eq_true_eq] at h
  obtain ⟨⟨⟨⟨⟨⟨⟨hchain, hroute⟩, hfirst⟩, hnext⟩, hchain'⟩, hroute'⟩, hcursor⟩, hdone⟩ := h
  exact ⟨call, call', v, v', _, .next (hchain ▸ replied hx) hnext hcursor
    (hroute'.trans hroute.symm) (.last (hchain' ▸ replied hy)), hroute, hfirst, hdone⟩

/-- The devices of `revocationRun` are read in two pages, between which the
second one is revoked. -/
def devicesFirst : List Event :=
  genesisRun ++ perform 1 1 secondDeviceRequest ++
    [.request (readRequest .devices 10 devicesPath "" [("limit", "1")]) (oracle 1500 4)]

def devicesNext : List Event :=
  [.request (revokeRequest 3 2 revocationBody) (oracle 1500 6), .resume 3 (oracle 1500 7) .none,
    .request (readRequest .devices 11 devicesPath "" [("cursor", "a50007"), ("limit", "100")])
      (oracle 1500 8)]

theorem devicesPages_facts :
    (readsTwice devicesFirst 2 (oracle 1500 5) devicesNext 4 (oracle 1500 9) .devices "a50007" &&
      (storeAfter crypto cfg devicesFirst chainId).chain.isSome &&
      decide ((storeAfter crypto cfg devicesFirst chainId).status (uid 2) = some .pendingKeys) &&
      decide ((storeAfter crypto cfg (devicesFirst ++ .resume 2 (oracle 1500 5) .none ::
        devicesNext) chainId).status (uid 2) = some .revoked)) = true := by
  decide +kernel

end Sample

/-- The pages of the devices show the registry as it stood when the first one
was answered, whatever happens between them: each device at most once, with
what the registry said of it then, and at the end every registered one. -/
theorem device_pages (X : Crypto) (cfg : RelayConfig) (id : String) {es fs : List Event}
    {call : Call} {v : Json} {rest : List (Call × Json)}
    (hpaged : Paged X cfg id es ((call, v) :: rest) fs) (hroute : call.route = .devices)
    (hfirst : query call.query "cursor" = none) {c : Chain}
    (hc : (storeAfter X cfg es id).chain = some c) :
    Turning X cfg c ((call, v) :: rest) ∧ ∃ taken : List ObjectRow,
      List.Forall₂ (fun r item => ∃ row,
          (storeAfter X cfg es id).registry.find? r.objectId = some row ∧
          (storeAfter X cfg es id).objects.find? (.device, r.objectId) = some r ∧
          item = deviceItem c (r.body.getD .null) row.enlistment) taken
        (((call, v) :: rest).flatMap (a ·.2 "items")) ∧
      (taken.map (·.objectId)).Pairwise (fun x y => Json.textLt x y = true) ∧
      ∀ x, ((call, v) :: rest).getLast? = some x → x.2.get "has_more" = .bool false →
        ∀ d, d ≠ "" → ((storeAfter X cfg es id).registry.find? d).isSome →
          d ∈ taken.map (·.objectId) := by
  obtain ⟨hsettled, hversioned, hplaced, hpages⟩ :=
    hpaged.objectPages (by rw [hroute]; rfl) hfirst hc
  rw [hroute] at hpages
  obtain ⟨parts, -, hlists, hended⟩ := hpages.listed
  set taken := parts.flatten
  refine ⟨hpages.turning, taken, hlists.deviceRows hversioned,
    List.pairwise_map.mpr hlists.order, fun x hx hdone d hd hreg => ?_⟩
  obtain ⟨r, hr, hlog⟩ := hplaced d hreg
  have hkey : r.key = (.device, d) := Table.key_of_find? hr
  obtain ⟨hkind, rfl⟩ := Prod.mk.inj hkey
  exact List.mem_map.mpr ⟨r, hlists.complete (hended x hx hdone) hsettled.sound rfl
    (Table.mem_of_find? hr) hkind hlog (textLt_empty hd), rfl⟩

/-- The second device is revoked between two pages, and shown as it was. -/
theorem device_pages_two : ∃ (c : Chain) (call call' : Call) (v v' : Json) (fs : List Event)
    (taken : List ObjectRow),
    Paged Sample.crypto Sample.cfg Sample.chainId Sample.devicesFirst [(call, v), (call', v')] fs ∧
    List.Forall₂ (fun r item => ∃ row,
        (storeAfter Sample.crypto Sample.cfg Sample.devicesFirst Sample.chainId).registry.find?
          r.objectId = some row ∧
        item = deviceItem c (r.body.getD .null) row.enlistment) taken
      ([(call, v), (call', v')].flatMap (a ·.2 "items")) ∧
    Sample.uid 2 ∈ taken.map (·.objectId) ∧
    (storeAfter Sample.crypto Sample.cfg Sample.devicesFirst Sample.chainId).status (Sample.uid 2) =
      some .pendingKeys := by
  have hfacts := Sample.devicesPages_facts
  simp only [Bool.and_eq_true, decide_eq_true_eq] at hfacts
  obtain ⟨⟨⟨htwice, hchain⟩, hstatus⟩, -⟩ := hfacts
  obtain ⟨call, call', v, v', fs, hpaged, hroute, hfirst, hdone⟩ := Sample.reads_twice htwice
  obtain ⟨c, hc⟩ := Option.isSome_iff_exists.mp hchain
  obtain ⟨-, taken, hitems, -, hall⟩ :=
    device_pages Sample.crypto Sample.cfg Sample.chainId hpaged hroute hfirst hc
  refine ⟨c, call, call', v, v', fs, taken, hpaged, hitems.imp ?_, ?_, hstatus⟩
  · rintro r item ⟨row, hrow, -, hitem⟩
    exact ⟨row, hrow, hitem⟩
  · refine hall _ rfl hdone _ (by decide) ?_
    rw [Store.status, Option.map_eq_some_iff] at hstatus
    obtain ⟨row, hrow, -⟩ := hstatus
    rw [hrow]
    rfl

/-- The pages of the epochs show every epoch that was accepted when the first
one was answered, each once and in the order of the numbers, with its log entry. -/
theorem epoch_pages (X : Crypto) (cfg : RelayConfig) (id : String) {es fs : List Event}
    {call : Call} {v : Json} {rest : List (Call × Json)}
    (hpaged : Paged X cfg id es ((call, v) :: rest) fs) (hroute : call.route = .epochsGet)
    (hfirst : query call.query "cursor" = none) {c : Chain}
    (hc : (storeAfter X cfg es id).chain = some c) :
    Turning X cfg c ((call, v) :: rest) ∧ ∃ taken : List ObjectRow,
      List.Forall₂ (fun r item => r ∈ (storeAfter X cfg es id).objects ∧ r.kind = .epoch ∧
          ∃ body l i entry, r.body = some body ∧ r.logId = some l ∧ r.relaySeq = some i ∧
            (storeAfter X cfg es id).logEntry l i = some entry ∧
            item = epochItem X body entry i) taken
        (((call, v) :: rest).flatMap (a ·.2 "items")) ∧
      (taken.map fun r => n (r.body.getD .null) "epoch").Pairwise (· < ·) ∧
      ∀ x, ((call, v) :: rest).getLast? = some x → x.2.get "has_more" = .bool false →
        ∀ r ∈ (storeAfter X cfg es id).objects, r.kind = .epoch → r.logId.isSome → r ∈ taken := by
  obtain ⟨hsettled, -, -, hpages⟩ := hpaged.objectPages (by rw [hroute]; rfl) hfirst hc
  rw [hroute] at hpages
  obtain ⟨parts, -, hlists, hended⟩ := hpages.listed
  set taken := parts.flatten
  have hmem : ∀ r ∈ taken, r ∈ (storeAfter X cfg es id).objects ∧ r.kind = .epoch ∧
      r.body.isSome := fun r hr => hlists.mem hr (hlists.placed (by decide) r hr)
  have hnumber : ∀ r ∈ taken, castSigned r.objectId = n (r.body.getD .null) "epoch" := by
    intro r hr
    obtain ⟨hobj, hkind, hbody⟩ := hmem r hr
    obtain ⟨body, hb⟩ := Option.isSome_iff_exists.mp hbody
    obtain ⟨-, hid⟩ := (hsettled.sound.objects r hobj).body body hb
    rw [hkind] at hid
    rw [← hid, hb]
    exact castSigned_toString _
  refine ⟨hpages.turning, taken, ?_, ?_, fun x hx hdone r hr hkind hlog => ?_⟩
  · refine ((List.forall₂_and_left _ _).mpr ⟨hmem, hlists.shown⟩).imp ?_
    rintro r item ⟨⟨hr, hkind, hbody⟩, l, i, entry, hl, hi, hentry, hitem⟩
    obtain ⟨body, hb⟩ := Option.isSome_iff_exists.mp hbody
    rw [hb] at hitem
    exact ⟨hr, hkind, body, l, i, entry, hb, hl, hi, hentry, hitem⟩
  · refine List.pairwise_map.mpr (hlists.order.imp_of_mem fun {x y} hx hy hlt => ?_)
    have hlt : castSigned x.objectId < castSigned y.objectId := of_decide_eq_true hlt
    rw [hnumber x hx, hnumber y hy] at hlt
    exact Int.ofNat_lt.mp hlt
  · refine hlists.complete (hended x hx hdone) hsettled.sound rfl hr hkind hlog ?_
    cases hbody : r.body with
    | none =>
        have hremoved := (hsettled.sound.objects r hr).removed hbody
        rw [hkind] at hremoved
        obtain h | h := hremoved <;> cases h
    | some body =>
        obtain ⟨-, hid⟩ := (hsettled.sound.objects r hr).body body hbody
        rw [hkind] at hid
        rw [← hid]
        refine decide_eq_true ?_
        rw [show objectId body .epoch = toString (n body "epoch") from rfl, castSigned_toString]
        exact lt_of_lt_of_le (by decide) (Int.natCast_nonneg _)

namespace Sample

/-- Two epochs are read in two pages. -/
def epochsFirst : List Event :=
  genesisRun ++ rotationRun ++
    [.request (readRequest .epochsGet 10 epochsPath "" [("limit", "1")]) (oracle 1500 4)]

def epochsNext : List Event :=
  [.request (readRequest .epochsGet 11 epochsPath "" [("cursor", "a50007"), ("limit", "100")])
    (oracle 1500 6)]

theorem epochsPages_facts :
    (readsTwice epochsFirst 2 (oracle 1500 5) epochsNext 3 (oracle 1500 9) .epochsGet "a50007" &&
      (storeAfter crypto cfg epochsFirst chainId).chain.isSome &&
      [(0 : Nat), 1].all fun k => (storeAfter crypto cfg epochsFirst chainId).objects.rows.any
        fun r => decide (r.kind = .epoch) && decide (r.objectId = toString k) &&
          r.logId.isSome) = true := by
  decide +kernel

end Sample

/-- Both epochs of a rotated chain are shown. -/
theorem epoch_pages_two : ∃ (call call' : Call) (v v' : Json) (fs : List Event)
    (taken : List ObjectRow),
    Paged Sample.crypto Sample.cfg Sample.chainId Sample.epochsFirst [(call, v), (call', v')] fs ∧
    (taken.map fun r => n (r.body.getD .null) "epoch").Pairwise (· < ·) ∧
    ∀ k < 2, toString k ∈ taken.map (·.objectId) := by
  have hfacts := Sample.epochsPages_facts
  simp only [Bool.and_eq_true] at hfacts
  obtain ⟨⟨htwice, hchain⟩, hepochs⟩ := hfacts
  obtain ⟨call, call', v, v', fs, hpaged, hroute, hfirst, hdone⟩ := Sample.reads_twice htwice
  obtain ⟨c, hc⟩ := Option.isSome_iff_exists.mp hchain
  obtain ⟨-, taken, -, horder, hall⟩ :=
    epoch_pages Sample.crypto Sample.cfg Sample.chainId hpaged hroute hfirst hc
  refine ⟨call, call', v, v', fs, taken, hpaged, horder, fun k hk => ?_⟩
  obtain ⟨r, hr, hrow⟩ := List.any_eq_true.mp
    (List.all_eq_true.mp hepochs k (by simp only [List.mem_cons, List.not_mem_nil]; omega))
  simp only [Bool.and_eq_true, decide_eq_true_eq] at hrow
  obtain ⟨⟨hkind, hid⟩, hplaced⟩ := hrow
  exact List.mem_map.mpr ⟨r, hall _ rfl hdone r hr hkind hplaced, hid⟩

/-- The pages of the snapshots show compactions of the states they were answered
in, in the order of their identifiers; those with a position are of the first
page's state, and at the end every one of these is shown. -/
theorem snapshot_pages (X : Crypto) (cfg : RelayConfig) (id : String) {es fs : List Event}
    {call : Call} {v : Json} {rest : List (Call × Json)}
    (hpaged : Paged X cfg id es ((call, v) :: rest) fs) (hroute : call.route = .snapshotsGet)
    (hfirst : query call.query "cursor" = none) {c : Chain}
    (hc : (storeAfter X cfg es id).chain = some c) :
    Turning X cfg c ((call, v) :: rest) ∧ ∃ parts : List (List ObjectRow),
      List.Forall₂ (fun (page : Call × Json) rows =>
          a page.2 "items" = rows.map (·.body.getD .null) ∧
          ∃ front ev, front ++ [ev] <+: fs ∧
            Replied X (World.after X cfg (es ++ front)) id ev page.1 page.2 ∧
            ∀ r ∈ rows, r ∈ (storeAfter X cfg (es ++ front) id).objects ∧ r.kind = .compaction ∧
              ∃ body, r.body = some body ∧ r.objectId = s body "compaction_id")
        ((call, v) :: rest) parts ∧
      (parts.flatten.map (·.objectId)).Pairwise (fun x y => Json.textLt x y = true) ∧
      (∀ r ∈ parts.flatten, r.logId.isSome → r ∈ (storeAfter X cfg es id).objects) ∧
      ∀ x, ((call, v) :: rest).getLast? = some x → x.2.get "has_more" = .bool false →
        ∀ r ∈ (storeAfter X cfg es id).objects, r.kind = .compaction → r.logId.isSome →
          r.objectId ≠ "" → r ∈ parts.flatten := by
  obtain ⟨hsettled, -, -, hpages⟩ := hpaged.objectPages (by rw [hroute]; rfl) hfirst hc
  rw [hroute] at hpages
  obtain ⟨parts, hlodged, hlists, hended⟩ := hpages.listed
  refine ⟨hpages.turning, parts, hlodged.imp fun page rows hpage => ?_,
    List.pairwise_map.mpr hlists.order, fun r hr hlog => (hlists.mem hr hlog).1,
    fun x hx hdone r hr hkind hlog hid => ?_⟩
  · obtain ⟨front, ev, hfront, hreplied, hshown, hrows⟩ := hpage
    have hitems : List.Forall₂ (fun item (r : ObjectRow) => item = r.body.getD .null)
        (a page.2 "items") rows := hshown.flip
    rw [← List.forall₂_map_right_iff, List.forall₂_eq_eq_eq] at hitems
    exact ⟨hitems, front, ev, hfront, hreplied, hrows⟩
  · exact hlists.complete (hended x hx hdone) hsettled.sound rfl hr hkind hlog (textLt_empty hid)

namespace Sample

/-- The snapshot of `reseedRun` is read. -/
def snapshotsFirst : List Event :=
  reseedRun [newPart] ++ [.request (readRequest .snapshotsGet 10
    (chainPath ++ "/" ++ chainId ++ "/snapshots") "" [("limit", "1")]) (oracle 1500 11)]

theorem snapshotsPages_facts :
    ((replies (World.after crypto cfg snapshotsFirst) 4 (oracle 1500 12)).any fun x =>
      decide (x.1.chain = chainId) && decide (x.1.route = .snapshotsGet) &&
      decide (query x.1.query "cursor" = none) && decide (x.2.get "has_more" = .bool false) &&
      (storeAfter crypto cfg snapshotsFirst chainId).chain.isSome &&
      (storeAfter crypto cfg snapshotsFirst chainId).objects.rows.any fun r =>
        decide (r.kind = .compaction) && r.logId.isSome && decide (r.objectId ≠ "")) = true := by
  decide +kernel

end Sample

/-- The snapshot of a re-seed is shown. -/
theorem snapshot_pages_one :
    ∃ (call : Call) (v : Json) (fs : List Event) (parts : List (List ObjectRow)),
    Paged Sample.crypto Sample.cfg Sample.chainId Sample.snapshotsFirst [(call, v)] fs ∧
    List.Forall₂ (fun (page : Call × Json) rows => a page.2 "items" = rows.map (·.body.getD .null) ∧
      ∀ r ∈ rows, r.kind = .compaction) [(call, v)] parts ∧ parts.flatten ≠ [] := by
  obtain ⟨⟨call, v⟩, hx, h⟩ := (Option.any_eq_true _ _).mp Sample.snapshotsPages_facts
  simp only [Bool.and_eq_true, decide_eq_true_eq, List.any_eq_true] at h
  obtain ⟨⟨⟨⟨⟨hchain, hroute⟩, hfirst⟩, hdone⟩, hsome⟩, r, hr, ⟨hkind, hplaced⟩, hid⟩ := h
  obtain ⟨c, hc⟩ := Option.isSome_iff_exists.mp hsome
  have hpaged : Paged Sample.crypto Sample.cfg Sample.chainId Sample.snapshotsFirst [(call, v)] _ :=
    .last (hchain ▸ Sample.replied hx)
  obtain ⟨-, parts, hparts, -, -, hall⟩ :=
    snapshot_pages Sample.crypto Sample.cfg Sample.chainId hpaged hroute hfirst hc
  refine ⟨call, v, _, parts, hpaged, hparts.imp ?_,
    List.ne_nil_of_mem (hall _ rfl hdone r hr hkind hplaced hid)⟩
  rintro page rows ⟨hitems, front, ev, -, -, hrows⟩
  exact ⟨hitems, fun r hr => (hrows r hr).2.1⟩

end PallaSync
