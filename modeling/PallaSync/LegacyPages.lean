import PallaSync.Legacy
import PallaSync.Sample
import Mathlib.Data.Nat.Digits.Defs

/-!
# Legacy pages

A page of records is filled row by row, by a prefilter on the bytes of a row's
texts and then by its exact canonical size, with 128 bytes set aside for what
stands around the records. Following the cursors delivers the rows above the
start, each once and in order, in pages within the byte limit, or stops at the
first row that does not fit a page of its own.

The cursor of a page is the sequence number of its last row, and it is read back
as a safe integer. A table with a greater sequence number cannot be paged
through; every other table can.
-/

namespace PallaSync

namespace Legacy

/-! ## Canonical sizes -/

/-- The canonical size of a value. -/
def Service.size (S : Service) (v : Value) : Nat := ((S.canonicalize v).getD []).length

/-- The canonical size of items, with a comma after each. -/
def Service.itemsSize (S : Service) : List Value → Nat
  | [] => 0
  | v :: items => S.size v + 1 + S.itemsSize items

/-- The canonical size of members, with a colon in each and a comma after each. -/
def Service.membersSize (S : Service) : List (String × Value) → Nat
  | [] => 0
  | m :: members => S.size (.str m.1) + 1 + S.size m.2 + 1 + S.membersSize members

def isPlain (c : Char) : Bool := c.isAlphanum || c == '_'

/-- The serializer of canonical JSON, as far as sizes go: every value has a
form; a text stands in quotes and may be escaped, which never shortens it; a
natural number of 64 bits has at most twenty digits; items and members stand in
brackets with commas between them. -/
structure Canonical (S : Service) : Prop where
  total : ∀ v, (S.canonicalize v).isSome
  null : S.size .null = 4
  text : ∀ t, t.utf8ByteSize + 2 ≤ S.size (.str t)
  plain : ∀ t, t.toList.all isPlain → S.size (.str t) = t.length + 2
  number : ∀ k : Nat, k < 18446744073709551616 → S.size (.int k) ≤ 20
  empty : S.size (.arr []) = 2
  array : ∀ v items, S.size (.arr (v :: items)) = S.itemsSize (v :: items) + 1
  object : ∀ m members, ((m :: members).map Prod.fst).Nodup →
    S.size (.obj (m :: members)) = S.membersSize (m :: members) + 1

theorem Canonical.canonicalize {S : Service} (hS : Canonical S) (v : Value) :
    ∃ bytes, S.canonicalize v = some bytes ∧ bytes.length = S.size v := by
  obtain ⟨bytes, hbytes⟩ := Option.isSome_iff_exists.mp (hS.total v)
  exact ⟨bytes, hbytes, by rw [Service.size, hbytes, Option.getD_some]⟩

/-- The prefilter counts no more than the exact size. -/
theorem Canonical.stringBytes_le {S : Service} (hS : Canonical S) (chain : String)
    (row : RecordRow) : row.stringBytes ≤ S.size (legacyRecord chain row) := by
  rw [legacyRecord, hS.object _ _ (by simp)]
  simp only [Service.membersSize, RecordRow.stringBytes]
  have hversion := hS.text row.protocolVersion
  have hrecord := hS.text row.recordId
  have hcollection := hS.text row.collectionName
  have haction := hS.text row.action
  have hpayload := hS.text row.encryptedPayload
  have hnonce := hS.text row.payloadNonce
  have hdevice := hS.text row.deviceId
  have hsignature := hS.text row.signature
  omega

theorem Canonical.cursor_le {S : Service} (hS : Canonical S) {page : RecordsPage}
    (h : page.next ≤ maxInteger) : S.size ((page.nextCursor.map Value.str).getD .null) ≤ 18 := by
  unfold RecordsPage.nextCursor
  cases page.more with
  | false =>
      have hnull := hS.null
      simp only [Bool.false_eq_true, if_false, Option.map_none, Option.getD_none]
      omega
  | true =>
      have hlength : (toString page.next).length ≤ 16 :=
        Nat.repr_length page.next 16 (by decide) (lt_of_le_of_lt h (by decide))
      have hdigits : (toString page.next).toList.all isPlain := by
        rw [Nat.toString_eq_repr, Nat.toList_repr, List.all_eq_true]
        intro c hc
        simp [isPlain, Char.isAlphanum, Nat.isDigit_of_mem_toDigits (by decide) (by decide) hc]
      simp only [if_true, Option.map_some, Option.getD_some]
      rw [hS.plain _ hdigits]
      omega

/-- What stands around the records is within the bytes set aside for it. -/
theorem Canonical.json_le {S : Service} (hS : Canonical S) {page : RecordsPage} {t : Nat}
    (h : page.next ≤ maxInteger) (ht : t < 18446744073709551616) :
    S.size (page.json t) ≤ 128 + S.itemsSize page.records := by
  have hcursor := hS.cursor_le h
  have htime := hS.number t ht
  have hrecords : S.size (.arr page.records) ≤ S.itemsSize page.records + 2 := by
    cases hp : page.records with
    | nil => rw [hS.empty]; omega
    | cons v items => rw [hS.array]; omega
  rw [RecordsPage.json, hS.object _ _ (by simp)]
  simp only [Service.membersSize]
  rw [hS.plain "records" (by decide), hS.plain "next_cursor" (by decide),
    hS.plain "server_time_ms" (by decide)]
  have h₁ : "records".length = 7 := by decide
  have h₂ : "next_cursor".length = 11 := by decide
  have h₃ : "server_time_ms".length = 14 := by decide
  omega

/-! ## The rows above a sequence number -/

theorem mem_above {rows : Records} {chain : String} {next : Nat} {r : RecordRow} :
    r ∈ above rows chain next ↔ r ∈ rows ∧ r.chainId = chain ∧ (next : Int) < r.serverSequence := by
  rw [above, List.mem_insertionSort, List.mem_filter]
  simp [Table.mem_def]

instance : Std.Total fun x y : RecordRow => x.serverSequence ≤ y.serverSequence where
  total x y := Int.le_total x.serverSequence y.serverSequence

instance : IsTrans RecordRow fun x y => x.serverSequence ≤ y.serverSequence where
  trans _ _ _ hxy hyz := Int.le_trans hxy hyz

instance : Std.Irrefl fun x y : RecordRow => x.serverSequence < y.serverSequence where
  irrefl x := Int.lt_irrefl x.serverSequence

instance : Std.Antisymm fun x y : RecordRow => x.serverSequence < y.serverSequence where
  antisymm _ _ hxy hyx := absurd hyx (Int.lt_asymm hxy)

theorem above_sorted (rows : Records) (chain : String) (next : Nat) :
    (above rows chain next).Pairwise fun x y => x.serverSequence < y.serverSequence := by
  have hle : (above rows chain next).Pairwise fun x y => x.serverSequence ≤ y.serverSequence :=
    List.pairwise_insertionSort _ _
  have hkeys : ((above rows chain next).map RecordRow.serverSequence).Nodup :=
    ((List.perm_insertionSort _ _).map _).nodup_iff.mpr (Table.select_nodup rows _)
  have hne := List.pairwise_map.mp hkeys
  exact (hle.and hne).imp fun h => lt_of_le_of_ne h.1 h.2

/-- Behind the first row above a number are the rows above that row. -/
theorem above_tail {rows : Records} {chain : String} {next : Nat} {row : RecordRow}
    {rest : List RecordRow} (h : above rows chain next = row :: rest) :
    above rows chain row.serverSequence.toNat = rest := by
  have hsorted := above_sorted rows chain next
  rw [h] at hsorted
  obtain ⟨hfirst, hrest⟩ := List.pairwise_cons.mp hsorted
  have hrow := mem_above.mp (h ▸ List.mem_cons_self : row ∈ above rows chain next)
  have hnat : (row.serverSequence.toNat : Int) = row.serverSequence := by omega
  refine (above_sorted rows chain _).eq_of_mem_iff hrest fun r => ?_
  have hiff : r ∈ above rows chain next ↔ r ∈ row :: rest := by rw [h]
  rw [mem_above, List.mem_cons] at hiff
  rw [mem_above, hnat]
  constructor
  · rintro ⟨hr, hchain, hlt⟩
    refine (hiff.mp ⟨hr, hchain, by omega⟩).resolve_left ?_
    rintro rfl
    exact absurd hlt (Int.lt_irrefl _)
  · intro hmem
    obtain ⟨hr, hchain, -⟩ := hiff.mpr (.inr hmem)
    exact ⟨hr, hchain, hfirst r hmem⟩

/-! ## Filling a page -/

/-- A page as its loop leaves it: `taken` rows of `rest` were added. -/
structure Filled (S : Service) (rows : Records) (chain : String) (rest : List RecordRow)
    (page page' : RecordsPage) (taken : List RecordRow) : Prop where
  records : page'.records = page.records ++ taken.map (legacyRecord chain)
  rest : taken ++ above rows chain page'.next = rest
  next : page'.next = page.next ∨ ∃ row ∈ taken, page'.next = row.serverSequence.toNat
  more : page'.more = true ↔ above rows chain page'.next ≠ []
  fits : page'.records ≠ [] → 128 + S.itemsSize page'.records ≤ S.byteLimit

theorem itemsSize_append (S : Service) (items : List Value) (v : Value) :
    S.itemsSize (items ++ [v]) = S.itemsSize items + (S.size v + 1) := by
  induction items with
  | nil => simp [Service.itemsSize]
  | cons x items ih =>
      rw [List.cons_append, Service.itemsSize, Service.itemsSize, ih]
      omega

/-- Where a row does not fit, the page so far ends, unless it is empty. -/
theorem stop_filled {S : Service} {rows : Records} {chain : String} {used : Nat}
    {page : RecordsPage} {row : RecordRow} {rest : List RecordRow}
    (hrest : above rows chain page.next = row :: rest)
    (hused : used = 128 + S.itemsSize page.records)
    (hfits : page.records ≠ [] → used ≤ S.byteLimit)
    (hbig : S.byteLimit - used < S.size (legacyRecord chain row) + 1) :
    (∃ page' taken, stop page = .ok page' ∧
        Filled S rows chain (above rows chain page.next) page page' taken ∧
        (page'.more = true → page'.records ≠ [])) ∨
      stop page = .error .payloadTooLarge ∧ page.records = [] ∧
        ∃ row rest, above rows chain page.next = row :: rest ∧
          S.byteLimit - used < S.size (legacyRecord chain row) + 1 := by
  unfold stop
  by_cases hempty : page.records = []
  · rw [hempty, List.isEmpty_nil, if_pos rfl]
    exact .inr ⟨rfl, rfl, row, rest, hrest, hbig⟩
  · rw [if_neg (by simpa using hempty)]
    refine .inl ⟨_, [], rfl, ⟨by simp, rfl, .inl rfl, ?_, fun h => ?_⟩, fun _ => hempty⟩
    · simp [hrest]
    · exact hused ▸ hfits h

/-- The loop adds rows in order, as long as they fit, and fails only when the
very first one does not. -/
theorem collect_filled {S : Service} (hS : Canonical S) {rows : Records} {chain : String}
    (left used : Nat) (page : RecordsPage) (hmore : page.more = false)
    (hused : used = 128 + S.itemsSize page.records)
    (hfits : page.records ≠ [] → used ≤ S.byteLimit) (hleft : left ≠ 0 ∨ page.records ≠ []) :
    (∃ page' taken, collect S rows chain left used page = .ok page' ∧
        Filled S rows chain (above rows chain page.next) page page' taken ∧
        (page'.more = true → page'.records ≠ [])) ∨
      collect S rows chain left used page = .error .payloadTooLarge ∧ page.records = [] ∧
        ∃ row rest, above rows chain page.next = row :: rest ∧
          S.byteLimit - used < S.size (legacyRecord chain row) + 1 := by
  induction left generalizing used page with
  | zero =>
      unfold collect
      cases hrest : above rows chain page.next with
      | nil =>
          refine .inl ⟨page, [], rfl, ⟨by simp, by simp [hrest], .inl rfl, ?_, ?_⟩, ?_⟩
          · simp [hmore, hrest]
          · exact fun h => hused ▸ hfits h
          · simp [hmore]
      | cons row rest =>
          have hnonempty : page.records ≠ [] := hleft.resolve_left (by simp)
          refine .inl ⟨_, [], rfl, ⟨by simp, by simp [hrest], .inl rfl, ?_, ?_⟩,
            fun _ => hnonempty⟩
          · simp [hrest]
          · exact fun h => hused ▸ hfits h
  | succ left ih =>
      unfold collect
      cases hrest : above rows chain page.next with
      | nil =>
          refine .inl ⟨page, [], rfl, ⟨by simp, by simp [hrest], .inl rfl, ?_, ?_⟩, ?_⟩
          · simp [hmore, hrest]
          · exact fun h => hused ▸ hfits h
          · simp [hmore]
      | cons row rest =>
          have hstop := stop_filled hrest hused hfits
          rw [hrest] at hstop
          have hprefilter := hS.stringBytes_le chain row
          obtain ⟨bytes, hbytes, hsize⟩ := hS.canonicalize (legacyRecord chain row)
          simp only [List.head?_cons, hbytes]
          split
          · exact hstop (by omega)
          split
          · exact hstop (by omega)
          · rename_i hfit
            have hnext := ih (used + (bytes.length + 1)) {
              records := page.records ++ [legacyRecord chain row]
              next := row.serverSequence.toNat
              more := false } rfl (by rw [itemsSize_append, hused, hsize]; omega)
              (fun _ => by omega) (.inr (by simp))
            rw [above_tail hrest] at hnext
            rcases hnext with ⟨page', taken, hok, hfilled, hprogress⟩ | ⟨-, hempty, -⟩
            · refine .inl ⟨page', row :: taken, hok, ⟨?_, ?_, ?_, hfilled.more, hfilled.fits⟩,
                hprogress⟩
              · rw [hfilled.records, List.map_cons, List.append_assoc, List.singleton_append]
              · rw [List.cons_append, hfilled.rest]
              · rcases hfilled.next with h | ⟨r, hr, h⟩
                · exact .inr ⟨row, List.mem_cons_self, h⟩
                · exact .inr ⟨r, List.mem_cons_of_mem _ hr, h⟩
            · simp at hempty

/-! ## Following the cursors -/

inductive Ending where
  | finished
  | failed (code : StatusCode)
  | unfinished
deriving DecidableEq

/-- The query for the page behind a cursor, with the limit of the first one. -/
def nextQuery (query : Query) (cursor : String) : Query :=
  ("cursor", cursor) :: query.filter fun p => p.1 == "limit"

/-- The pages that following the cursors yields, each with the clock reading it
is answered at, and how it ends. -/
def follow (S : Service) (rows : Records) (chain : String) :
    List Nat → Query → List (RecordsPage × Nat) × Ending
  | [], _ => ([], .unfinished)
  | t :: times, query =>
      match records S rows chain query with
      | .error code => ([], .failed code)
      | .ok page =>
          match page.nextCursor with
          | none => ([(page, t)], .finished)
          | some cursor =>
              let (pages, ending) := follow S rows chain times (nextQuery query cursor)
              ((page, t) :: pages, ending)

/-- All records of some pages. -/
def delivered (pages : List (RecordsPage × Nat)) : List Value :=
  pages.flatMap fun p => p.1.records

/-- A query's position and limit. -/
structure Asks (S : Service) (query : Query) (start limit : Nat) : Prop where
  position : decimal (((query.lookup "cursor").or (query.lookup "after_seq")).getD "0") = .ok start
  count : decimal ((query.lookup "limit").getD "200") = .ok limit
  positive : 1 ≤ limit
  within : limit ≤ S.cfg.limits.pageLimit

theorem decimal_toString {k : Nat} (h : k ≤ maxInteger) : decimal (toString k) = .ok k := by
  have hdigits : (Nat.toDigits 10 k).all Char.isDigit = true := by
    rw [List.all_eq_true]
    exact fun c hc => Nat.isDigit_of_mem_toDigits (by decide) (by decide) hc
  have hnonempty : (Nat.toDigits 10 k).isEmpty = false := by
    rw [Bool.eq_false_iff, ne_eq, List.isEmpty_iff]
    exact Nat.toDigits_ne_nil
  have htext : (toString k).toList = Nat.toDigits 10 k := by
    rw [Nat.toString_eq_repr, Nat.toList_repr]
  unfold decimal
  rw [htext]
  refine Check.bind_ok.mpr ⟨(), Check.failIf_ok.mpr (by rw [hdigits, hnonempty]; rfl), ?_⟩
  rw [Nat.ofDigitChars_ten_toDigits]
  exact Check.bind_ok.mpr ⟨(), Check.failIf_ok.mpr (by simpa using h), rfl⟩

theorem decimal_le {input : String} {k : Nat} (h : decimal input = .ok k) : k ≤ maxInteger := by
  unfold decimal at h
  obtain ⟨_, -, h⟩ := Check.bind_ok.mp h
  obtain ⟨_, hle, h⟩ := Check.bind_ok.mp h
  obtain rfl := Except.ok.inj h
  simpa using Check.failIf_ok.mp hle

theorem lookup_limit (query : Query) :
    (query.filter fun p => p.1 == "limit").lookup "limit" = query.lookup "limit" := by
  induction query with
  | nil => rfl
  | cons p query ih =>
      by_cases h : p.1 = "limit"
      · obtain ⟨name, value⟩ := p
        obtain rfl := h
        rw [List.filter_cons_of_pos (by simp), List.lookup_cons_self, List.lookup_cons_self]
      · obtain ⟨name, value⟩ := p
        have hne : ("limit" == name) = false := beq_eq_false_iff_ne.mpr (Ne.symm h)
        rw [List.filter_cons_of_neg (by simpa using h), ih, List.lookup_cons, hne]

theorem Asks.next {S : Service} {query : Query} {start limit next : Nat}
    (h : Asks S query start limit) (hnext : next ≤ maxInteger) :
    Asks S (nextQuery query (toString next)) next limit where
  position := by
    rw [nextQuery, List.lookup_cons_self, Option.some_or, Option.getD_some]
    exact decimal_toString hnext
  count := by
    rw [nextQuery, List.lookup_cons, show ("limit" == "cursor") = false by decide]
    dsimp only
    rw [lookup_limit]
    exact h.count
  positive := h.positive
  within := h.within

theorem records_eq {S : Service} {rows : Records} {chain : String} {query : Query}
    {start limit : Nat} (h : Asks S query start limit) :
    records S rows chain query = collect S rows chain limit 128 ⟨[], start, false⟩ := by
  have hlimit : (decide (limit = 0) || decide (S.cfg.limits.pageLimit < limit)) = false := by
    have hpositive := h.positive
    have hwithin := h.within
    simp
    omega
  rw [records, h.position, h.count]
  simp only [bind, Except.bind, hlimit]
  rfl

/-- What following the cursors from a start comes to. -/
structure Followed (S : Service) (rows : Records) (chain : String) (start : Nat)
    (pages : List (RecordsPage × Nat)) (ending : Ending) : Prop where
  complete : ending = .finished →
    delivered pages = (above rows chain start).map (legacyRecord chain)
  stopped : ∀ code, ending = .failed code → code = .payloadTooLarge ∧
    ∃ before row rest, above rows chain start = before ++ row :: rest ∧
      delivered pages = before.map (legacyRecord chain) ∧
      S.byteLimit - 128 < S.size (legacyRecord chain row) + 1
  ends : ending ≠ .unfinished
  fits : ∀ p ∈ pages, p.1.records ≠ [] → S.size (p.1.json p.2) ≤ S.byteLimit
  cursors : ∀ p ∈ pages, p.1.nextCursor.isSome ↔ above rows chain p.1.next ≠ []

/-- The sequence numbers of a chain are safe integers. -/
def Safe (rows : Records) (chain : String) : Prop :=
  ∀ r ∈ rows, r.chainId = chain → r.serverSequence ≤ maxInteger

theorem Filled.next_le {S : Service} {rows : Records} {chain : String} {start : Nat}
    {page page' : RecordsPage} {taken : List RecordRow} (hsafe : Safe rows chain)
    (hstart : page.next ≤ maxInteger)
    (h : Filled S rows chain (above rows chain start) page page' taken) :
    page'.next ≤ maxInteger := by
  rcases h.next with heq | ⟨row, hrow, heq⟩
  · omega
  · have hmem : row ∈ above rows chain start := by
      rw [← h.rest]
      exact List.mem_append_left _ hrow
    obtain ⟨hrows, hchain, -⟩ := mem_above.mp hmem
    have hle := hsafe row hrows hchain
    omega

theorem follow_followed {S : Service} (hS : Canonical S) {rows : Records} {chain : String}
    (hsafe : Safe rows chain) {limit : Nat} (times : List Nat) (query : Query) (start : Nat)
    (hasks : Asks S query start limit) (htimes : ∀ t ∈ times, t < 18446744073709551616)
    (henough : (above rows chain start).length < times.length) :
    Followed S rows chain start (follow S rows chain times query).1
      (follow S rows chain times query).2 := by
  induction times generalizing query start with
  | nil => exact absurd henough (Nat.not_lt_zero _)
  | cons t times ih =>
      have hpositive := hasks.positive
      have hcollect := @collect_filled S hS rows chain limit 128 ⟨[], start, false⟩ rfl rfl
        (fun h => absurd rfl h) (.inl (by omega))
      rw [← records_eq hasks] at hcollect
      unfold follow
      rcases hcollect with ⟨page, taken, hok, hfilled, hprogress⟩ |
        ⟨herror, -, row, rest, hrest, hbig⟩
      · have hle := hfilled.next_le hsafe (decimal_le hasks.position)
        have hrecords : page.records = taken.map (legacyRecord chain) := hfilled.records
        have hfits : page.records ≠ [] → S.size (page.json t) ≤ S.byteLimit := fun h =>
          (hS.json_le hle (htimes t List.mem_cons_self)).trans (hfilled.fits h)
        simp only [hok]
        cases hmore : page.more with
        | false =>
            have hnone : page.nextCursor = none := by rw [RecordsPage.nextCursor, hmore]; rfl
            have hnil : above rows chain page.next = [] := by
              by_contra hne
              rw [hfilled.more.mpr hne] at hmore
              cases hmore
            have hrest := hfilled.rest
            rw [hnil, List.append_nil] at hrest
            simp only [hnone]
            refine ⟨fun _ => ?_, fun code h => (by cases h), by simp, ?_, ?_⟩
            · rw [← show taken = above rows chain start from hrest, ← hrecords]
              simp [delivered]
            · intro p hp
              obtain rfl := List.mem_singleton.mp hp
              exact hfits
            · intro p hp
              obtain rfl := List.mem_singleton.mp hp
              simp [hnone, hnil]
        | true =>
            have hsome : page.nextCursor = some (toString page.next) := by
              rw [RecordsPage.nextCursor, hmore]; rfl
            have hnonempty := hprogress hmore
            have hshorter : (above rows chain page.next).length < times.length := by
              have hlength := congrArg List.length hfilled.rest
              rw [List.length_append] at hlength
              have htaken : taken.length ≠ 0 := by
                rintro hzero
                rw [List.length_eq_zero_iff.mp hzero] at hrecords
                exact hnonempty hrecords
              simp only [List.length_cons] at henough
              dsimp only at hlength
              omega
            have hnext := ih (nextQuery query (toString page.next)) page.next (hasks.next hle)
              (fun t' ht' => htimes t' (List.mem_cons_of_mem _ ht')) hshorter
            have hdelivered : delivered ((page, t) ::
                (follow S rows chain times (nextQuery query (toString page.next))).1) =
                taken.map (legacyRecord chain) ++ delivered
                  (follow S rows chain times (nextQuery query (toString page.next))).1 := by
              rw [delivered, List.flatMap_cons, hrecords]
              rfl
            have hrest : taken ++ above rows chain page.next = above rows chain start :=
              hfilled.rest
            simp only [hsome]
            refine ⟨fun h => ?_, fun code h => ?_, hnext.ends, ?_, ?_⟩
            · rw [hdelivered, hnext.complete h, ← List.map_append, hrest]
            · obtain ⟨hcode, before, row, rest, habove, hbefore, hbig⟩ := hnext.stopped code h
              refine ⟨hcode, taken ++ before, row, rest, ?_, ?_, hbig⟩
              · rw [← hrest, habove, List.append_assoc]
              · rw [hdelivered, hbefore, List.map_append]
            · intro p hp
              rcases List.mem_cons.mp hp with rfl | hp
              · exact hfits
              · exact hnext.fits p hp
            · intro p hp
              rcases List.mem_cons.mp hp with rfl | hp
              · rw [hsome, ← hfilled.more, hmore]
                simp
              · exact hnext.cursors p hp
      · simp only [herror]
        refine ⟨fun h => (by cases h), fun code h => ?_, by simp, fun p hp => (by cases hp),
          fun p hp => (by cases hp)⟩
        obtain rfl := Ending.failed.inj h
        exact ⟨rfl, [], row, rest, hrest, rfl, hbig⟩

/-- In every table whose sequence numbers are safe integers, following the
cursors from a start delivers the rows of the chain above it, each once and in
order, or stops with 413 at the first one that does not fit an empty page; the
pages are within the byte limit and have a cursor exactly when rows remain, and
the prefilter stops at no row that the exact test would have taken. -/
theorem legacy_pages (S : Service) (hS : Canonical S) (rows : Records) (chain : String)
    (hsafe : Safe rows chain) (query : Query) (start limit : Nat)
    (hasks : Asks S query start limit) (times : List Nat)
    (htimes : ∀ t ∈ times, t < 18446744073709551616)
    (henough : (above rows chain start).length < times.length) :
    Followed S rows chain start (follow S rows chain times query).1
        (follow S rows chain times query).2 ∧
      ((above rows chain start).Pairwise fun x y => x.serverSequence < y.serverSequence) ∧
      (∀ r, r ∈ above rows chain start ↔
        r ∈ rows ∧ r.chainId = chain ∧ (start : Int) < r.serverSequence) ∧
      ∀ used row, S.byteLimit - used < row.stringBytes →
        S.byteLimit - used < S.size (legacyRecord chain row) + 1 := by
  refine ⟨follow_followed hS hsafe times query start hasks htimes henough,
    above_sorted rows chain start, fun r => mem_above, fun used row h => ?_⟩
  have hle := hS.stringBytes_le chain row
  omega

/-! ## A serializer -/

namespace Sample

def escape (c : Char) : List UInt8 :=
  match c with
  | '"' => [92, 34]
  | '\\' => [92, 92]
  | '\n' => [92, 110]
  | '\r' => [92, 114]
  | '\t' => [92, 116]
  | c =>
      if c.toNat = 8 then [92, 98]
      else if c.toNat = 12 then [92, 102]
      else if c.toNat < 32 then
        [92, 117, 48, 48, .ofNat (48 + c.toNat / 16),
          .ofNat (if c.toNat % 16 < 10 then 48 + c.toNat % 16 else 87 + c.toNat % 16)]
      else String.utf8EncodeChar c

def writeText (text : String) : List UInt8 := 34 :: (text.toList.flatMap escape ++ [34])

mutual

def write : Value → List UInt8
  | .null => [110, 117, 108, 108]
  | .int i => utf8 (toString i)
  | .str text => writeText text
  | .arr items => 91 :: (writeItems items ++ [93])
  | .obj members => 123 :: (writeMembers members ++ [125])

def writeItems : List Value → List UInt8
  | [] => []
  | [v] => write v
  | v :: w :: items => write v ++ 44 :: writeItems (w :: items)

def writeMembers : List (String × Value) → List UInt8
  | [] => []
  | [(key, v)] => writeText key ++ 58 :: write v
  | (key, v) :: m :: members =>
      writeText key ++ 58 :: (write v ++ 44 :: writeMembers (m :: members))

end

def service (byteLimit : Nat) : Service where
  crypto := PallaSync.Sample.crypto
  cfg := PallaSync.Sample.cfg
  byteLimit := byteLimit
  canonicalize v := some (write v)
  parse _ := none

theorem utf8_length (text : String) : (utf8 text).length = text.utf8ByteSize := by
  have hlist (chars : List Char) :
      (chars.flatMap String.utf8EncodeChar).length = (String.ofList chars).utf8ByteSize := by
    induction chars with
    | nil => rfl
    | cons c chars ih =>
        rw [List.flatMap_cons, List.length_append, ih, String.length_utf8EncodeChar,
          show String.ofList (c :: chars) = String.singleton c ++ String.ofList chars by
            rw [← String.ofList_toList (s := String.singleton c), ← String.ofList_append]; simp,
          String.utf8ByteSize_append, String.utf8ByteSize_singleton]
  rw [utf8, hlist, String.ofList_toList]

theorem escape_length (c : Char) : (String.utf8EncodeChar c).length ≤ (escape c).length := by
  unfold escape
  split
  all_goals first
    | decide
    | skip
  rw [String.length_utf8EncodeChar]
  split
  · rw [utf8Size_small (by omega)]; decide
  split
  · rw [utf8Size_small (by omega)]; decide
  split
  · rw [utf8Size_small (by omega)]; simp
  · rw [String.length_utf8EncodeChar]

theorem isPlain_toNat {c : Char} (h : isPlain c = true) : 32 ≤ c.toNat ∧ c.toNat < 128 := by
  delta isPlain Char.isAlphanum Char.isAlpha Char.isUpper Char.isLower Char.isDigit at h
  simp only [Bool.or_eq_true, Bool.and_eq_true, decide_eq_true_eq, beq_iff_eq,
    UInt32.le_iff_toNat_le, ge_iff_le] at h
  rcases h with (((h | h) | h) | rfl)
  · exact ⟨le_trans (by decide) h.1, lt_of_le_of_lt h.2 (by decide)⟩
  · exact ⟨le_trans (by decide) h.1, lt_of_le_of_lt h.2 (by decide)⟩
  · exact ⟨le_trans (by decide) h.1, lt_of_le_of_lt h.2 (by decide)⟩
  · decide

theorem escape_plain {c : Char} (h : isPlain c = true) : (escape c).length = 1 := by
  obtain ⟨hlow, hhigh⟩ := isPlain_toNat h
  unfold escape
  split
  all_goals first
    | exact absurd h (by decide)
    | skip
  rw [if_neg (by omega), if_neg (by omega), if_neg (by omega), String.length_utf8EncodeChar,
    utf8Size_small hhigh]

theorem flatMap_length_one {chars : List Char} {f : Char → List UInt8}
    (h : ∀ c ∈ chars, (f c).length = 1) : (chars.flatMap f).length = chars.length := by
  induction chars with
  | nil => rfl
  | cons c chars ih =>
      rw [List.flatMap_cons, List.length_append, h c List.mem_cons_self,
        ih fun x hx => h x (List.mem_cons_of_mem _ hx), List.length_cons, Nat.add_comm]

theorem writeText_length (text : String) : text.utf8ByteSize + 2 ≤ (writeText text).length := by
  have hle (chars : List Char) :
      (chars.flatMap String.utf8EncodeChar).length ≤ (chars.flatMap escape).length := by
    induction chars with
    | nil => exact le_refl _
    | cons c chars ih =>
        have hc := escape_length c
        rw [List.flatMap_cons, List.flatMap_cons, List.length_append, List.length_append]
        omega
  have hall := hle text.toList
  rw [← utf8_length, writeText, List.length_cons, List.length_append, List.length_singleton]
  unfold utf8
  omega

theorem writeItems_length (byteLimit : Nat) (v : Value) (items : List Value) :
    (writeItems (v :: items)).length + 1 = (service byteLimit).itemsSize (v :: items) := by
  induction items generalizing v with
  | nil => rfl
  | cons w items ih =>
      have hsize : (service byteLimit).size v = (write v).length := rfl
      rw [writeItems, Service.itemsSize, ← ih w, hsize, List.length_append, List.length_cons]
      omega

theorem writeMembers_length (byteLimit : Nat) (m : String × Value)
    (members : List (String × Value)) :
    (writeMembers (m :: members)).length + 1 = (service byteLimit).membersSize (m :: members) := by
  induction members generalizing m with
  | nil =>
      have hkey : (service byteLimit).size (.str m.1) = (writeText m.1).length := rfl
      have hvalue : (service byteLimit).size m.2 = (write m.2).length := rfl
      rw [writeMembers, Service.membersSize, Service.membersSize, hkey, hvalue, List.length_append,
        List.length_cons]
      omega
  | cons m' members ih =>
      have hkey : (service byteLimit).size (.str m.1) = (writeText m.1).length := rfl
      have hvalue : (service byteLimit).size m.2 = (write m.2).length := rfl
      rw [writeMembers, Service.membersSize, ← ih m', hkey, hvalue, List.length_append,
        List.length_cons, List.length_append, List.length_cons]
      omega

theorem service_canonical (byteLimit : Nat) : Canonical (service byteLimit) where
  total _ := rfl
  null := rfl
  text t := writeText_length t
  plain t h := by
    have hsize : (service byteLimit).size (.str t) = (writeText t).length := rfl
    rw [hsize, writeText, List.length_cons, List.length_append, List.length_singleton,
      flatMap_length_one fun c hc => escape_plain (List.all_eq_true.mp h c hc),
      String.length_toList]
  number k h := by
    have hsize : (service byteLimit).size (.int k) = (utf8 (toString (k : Int))).length := rfl
    have htext : (toString (k : Int)).toList = Nat.toDigits 10 k := by
      rw [show toString (k : Int) = Nat.repr k from rfl, Nat.toList_repr]
    rw [hsize, utf8, htext, flatMap_length_one]
    · exact Nat.toDigits_length 10 k 20 (by decide) (lt_trans h (by decide))
    · intro c hc
      have hdigit := Nat.isDigit_of_mem_toDigits (by decide) (by decide) hc
      have hplain : isPlain c = true := by simp [isPlain, Char.isAlphanum, hdigit]
      rw [String.length_utf8EncodeChar, utf8Size_small (isPlain_toNat hplain).2]
  empty := rfl
  array v items := by
    have hsize : (service byteLimit).size (.arr (v :: items)) =
        (write (.arr (v :: items))).length := rfl
    rw [hsize, write, List.length_cons, List.length_append, ← writeItems_length byteLimit]
    rfl
  object m members _ := by
    have hsize : (service byteLimit).size (.obj (m :: members)) =
        (write (.obj (m :: members))).length := rfl
    rw [hsize, write, List.length_cons, List.length_append, ← writeMembers_length byteLimit]
    rfl

/-! ## Tables to page through -/

def row (k : Nat) (sequence : Int) : RecordRow where
  chainId := "a1"
  recordId := "r" ++ toString k
  protocolVersion := "2.1"
  epoch := 0
  collectionName := "palleria.search_history/2"
  action := "upsert"
  encryptedPayload := "e0"
  payloadNonce := "c0"
  deviceId := "u1"
  lamport := 1
  createdAtMs := 0
  signature := "b0"
  serverSequence := sequence

def threeRows : Records := ⟨[row 3 3, row 1 1, row 2 2], by decide⟩

/-- Two rows behind the greatest safe integer. -/
def farRows : Records := ⟨[row 1 9007199254740992, row 2 9007199254740993], by decide⟩

def firstQuery (limit : String) : Query := [("after_seq", "0"), ("limit", limit)]

theorem firstQuery_asks (byteLimit : Nat) : Asks (service byteLimit) (firstQuery "1") 0 1 where
  position := by decide +kernel
  count := by decide +kernel
  positive := by decide
  within := show 1 ≤ 100 by decide

end Sample

/-- Three rows are paged through one by one. -/
theorem legacy_pages_three :
    Followed (Sample.service 4096) Sample.threeRows "a1" 0
        (follow (Sample.service 4096) Sample.threeRows "a1" [5, 5, 6, 7]
          (Sample.firstQuery "1")).1 .finished := by
  have hsafe : ∀ r ∈ Sample.threeRows.rows, r.serverSequence ≤ maxInteger := by decide
  have hpages := legacy_pages (Sample.service 4096) (Sample.service_canonical 4096)
    Sample.threeRows "a1" (fun r hr _ => hsafe r hr) (Sample.firstQuery "1") 0 1
      (Sample.firstQuery_asks 4096)
    [5, 5, 6, 7] (by decide) (by decide)
  have hending : (follow (Sample.service 4096) Sample.threeRows "a1" [5, 5, 6, 7]
      (Sample.firstQuery "1")).2 = .finished := by decide +kernel
  exact hending ▸ hpages.1

/-- A page that ends behind the safe integers has a cursor that is refused,
though rows remain and fit. -/
theorem legacy_pages_far :
    (follow (Sample.service 4096) Sample.farRows "a1" [5, 6, 7] (Sample.firstQuery "1")).2 =
        .failed .badRequest ∧
      (above Sample.farRows "a1" 0).length = 2 ∧
      ∀ row ∈ Sample.farRows.rows,
        (Sample.service 4096).size (legacyRecord "a1" row) + 1 ≤ 4096 - 128 := by
  decide +kernel

end Legacy

end PallaSync
