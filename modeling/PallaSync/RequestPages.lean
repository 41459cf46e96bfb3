import PallaSync.ObjectPages
import PallaSync.Offers

/-!
# Pages of enrollment requests

The requests are read from the history of the offers, each offer as its last
copy up to the version that the first page pinned. Copies are never lost or
changed, so every page takes from the same rows (`requestList_later`), though
offers are made, requested and decided between the pages.
-/

namespace PallaSync

open Atomic Machine Keyset

/-! ## The rows of a listing -/

/-- An offer with a request, in a generation, that a device may see. -/
def OfferState.visible (generation : Nat) (device : Option String) (e : OfferState) : Bool :=
  e.request.isSome && e.offer.get "generation" == .num generation &&
    (device.isNone || e.offer.get "offering_device_id" == Json.ofOption device)

/-- A request as a listing shows it. -/
def OfferState.item (X : Crypto) (e : OfferState) : Json :=
  let request := e.request.getD .null
  .obj [("offering_device_id", e.offer.get "offering_device_id"), ("request", request),
    ("request_hash", .str (X.objectHash request)), ("status", .str e.status.text)]

/-- The requests of a version of the offers. -/
def requestList (hist : List OfferHistoryRow) (version generation : Nat)
    (device : Option String) : List OfferHistoryRow :=
  ((offerCopying.latest hist version).filter fun h =>
    h.state.visible generation device).insertionSort
    fun x y => Json.textLt y.requestId x.requestId = false

section Rows

theorem textLt_strict : Strict Json.textLt fun _ => True where
  irrefl := Json.textLt_irrefl
  trans := Json.textLt_trans
  total {x y} _ _ hxy hyx := by
    obtain h | h | h := Json.textLt_or_eq x y
    · rw [hxy] at h
      cases h
    · exact h
    · rw [hyx] at h
      cases h

theorem textLt_negTrans {x y z : String} (hyx : Json.textLt y x = false)
    (hzy : Json.textLt z y = false) : Json.textLt z x = false := by
  have hxy : Json.textLe x y = true := by rw [Json.textLe, hyx]; rfl
  have hyz : Json.textLe y z = true := by rw [Json.textLe, hzy]; rfl
  have hxz : Json.textLe x z = true :=
    IsTrans.trans (r := fun x y => Json.textLe x y = true) x y z hxy hyz
  rwa [Json.textLe, Bool.not_eq_true'] at hxz

variable {hist hist' : List OfferHistoryRow} {tab tab' : Table OfferRow OfferRow.requestId}
  {version generation : Nat} {device : Option String} {h : OfferHistoryRow}

theorem mem_requestList : h ∈ requestList hist version generation device ↔
    h ∈ offerCopying.latest hist version ∧ h.state.visible generation device = true := by
  rw [requestList, List.mem_insertionSort, List.mem_filter]

theorem requestList_increasing
    (hv : offerCopying.Versioned OfferState.New OfferState.Next hist tab) :
    Increasing OfferHistoryRow.requestId Json.textLt
      (requestList hist version generation device) := by
  refine textLt_strict.increasing_insertionSort (fun _ _ => trivial) ?_ textLt_negTrans
  exact hv.latest_nodup.sublist (List.filter_sublist.map _)

/-- The requests of a version stay what they were. -/
theorem requestList_later (hv : offerCopying.Versioned OfferState.New OfferState.Next hist' tab')
    (hfront : hist <+: hist') (hversion : version ≤ hist.length) :
    requestList hist' version generation device = requestList hist version generation device := by
  rw [requestList, requestList, hv.latest_eq hfront hversion]

/-- The statement of a page returns the requests of its version after its key. -/
theorem listedRequests_eq {st : Store} {c : Chain} {auth : Auth} {p : Page} (hv : st.Offered) :
    listedRequests st c auth p = above OfferHistoryRow.requestId Json.textLt p.key
      (requestList st.offerHistory (n p.extra "offer_version") c.generation auth.device) := by
  have hrows : listedRequests st c auth p =
      ((offerCopying.latest st.offerHistory (n p.extra "offer_version")).filter fun h =>
        Json.textLt p.key h.requestId && h.state.visible c.generation auth.device).insertionSort
          fun x y => Json.textLt y.requestId x.requestId = false := by
    rw [listedRequests, Copying.latest, List.filter_filter]
    simp only [Json.textLe, Bool.not_eq_true']
    congr 1
    refine List.filter_congr fun h _ => ?_
    dsimp only [offerCopying, OfferState.visible, Auth.admin, OfferHistoryRow.state]
    simp only [beq_eq_decide]
    ac_rfl
  have hincreasing : Increasing OfferHistoryRow.requestId Json.textLt
      (listedRequests st c auth p) := by
    rw [hrows]
    refine textLt_strict.increasing_insertionSort (fun _ _ => trivial) ?_ textLt_negTrans
    exact hv.latest_nodup.sublist (List.filter_sublist.map _)
  refine textLt_strict.eq_of_mem_iff hincreasing
    ((requestList_increasing hv).sublist List.filter_sublist) fun h => ?_
  rw [hrows, mem_above, mem_requestList, List.mem_insertionSort, List.mem_filter, Bool.and_eq_true]
  tauto

end Rows

/-! ## One page -/

/-- The answer of a page of requests: what it took of the rows after its key. -/
structure RequestAnswer (X : Crypto) (p : Page) (rows taken : List OfferHistoryRow) (more : Bool)
    (v : Json) : Prop where
  finished : Finished p (taken.map (·.state.item X)) more false v
  front : taken <+: rows
  limit : taken.length ≤ p.limit
  progress : more = true → taken ≠ []
  all : more = false → taken = rows

section Answers

variable {R : Relay} {auth : Auth} {q : Query} {v : Json} {u u' : Work}

theorem requests_ok (h : requests R auth q u = .ok (v, u')) :
    ∃ p taken more, p.filters = .obj [("device_id", Json.ofOption auth.device)] ∧
      Turned R .requestsGet q v u u' p
        { p with key := reached OfferHistoryRow.requestId p.key taken } more ∧
      RequestAnswer R.crypto p (listedRequests u.cell.store u.cell.chain auth p) taken more v := by
  simp only [requests, bind_ok, lift_ok, look_ok, chain_ok, pure_ok] at h
  obtain ⟨_, _, ⟨-, rfl⟩, p, u₁, hpage, c, _, ⟨rfl, rfl⟩, rows, _, ⟨rfl, rfl⟩, next, u₂, hnext, rfl,
    rfl⟩ := h
  obtain ⟨hcell, -, hfilters, hlimited⟩ := page_opened hpage
  rw [hcell] at hnext
  set rows := listedRequests u.cell.store u.cell.chain auth p with hrows
  have htake : (rows.take (p.limit + 1)).take p.limit = rows.take p.limit := by
    rw [List.take_take, Nat.min_eq_left (Nat.le_succ _)]
  have hmore : p.limit < (rows.take (p.limit + 1)).length ↔ p.limit < rows.length := by
    rw [List.length_take]
    omega
  rw [htake] at hnext
  rw [hcell, ← hrows, htake]
  refine ⟨p, rows.take p.limit, decide (p.limit < (rows.take (p.limit + 1)).length), hfilters,
    ⟨⟨u₁, hfilters ▸ hpage⟩, ⟨rfl, rfl, rfl⟩, ⟨u₁, hcell, hnext⟩⟩, ⟨rfl, rfl, rfl, rfl, by simp⟩,
    List.take_prefix _ _, List.length_take_le _ _, fun htrue => ?_, fun hfalse => ?_⟩
  · rw [decide_eq_true_eq, hmore] at htrue
    have hpositive := hlimited.positive
    exact List.ne_nil_of_length_pos (by rw [List.length_take]; omega)
  · rw [decide_eq_false_iff_not, hmore] at hfalse
    exact List.take_of_length_le (Nat.le_of_not_lt hfalse)

end Answers

/-! ## All pages -/

section Pages

variable {X : Crypto} {cfg : RelayConfig} {id : String} {es fs : List Event} {ev : Event}
  {call : Call} {v : Json} {pages : List (Call × Json)}

/-- The rows a page of requests is opened on. -/
def Page.requestRows (p : Page) (st : Store) (device : Option String) : List OfferHistoryRow :=
  requestList st.offerHistory (n p.extra "offer_version") p.cut.generation device

/-- A page of requests that the run answers, with what it was opened as. -/
structure RequestPage (X : Crypto) (cfg : RelayConfig) (id : String) (es : List Event)
    (ev : Event) (call : Call) (v : Json) (c : Chain) (u u' : Work) (p : Page)
    (taken : List OfferHistoryRow) (more : Bool) : Prop where
  ran : ∃ m, Ran X (World.after X cfg es) id ev c m v u u'
  filters : p.filters = .obj [("device_id", Json.ofOption call.auth.device)]
  turned : Turned ((World.after X cfg es).relay X) .requestsGet call.query v u u' p
    { p with key := reached OfferHistoryRow.requestId p.key taken } more
  answer : p.cut.generation = c.generation → RequestAnswer X p
    (above OfferHistoryRow.requestId Json.textLt p.key
      (p.requestRows u.cell.store call.auth.device)) taken more v

theorem Replied.requestPage (h : Replied X (World.after X cfg es) id ev call v)
    (hroute : call.route = .requestsGet) :
    ∃ c u u' p taken more, RequestPage X cfg id es ev call v c u u' p taken more := by
  obtain ⟨body, c, u, u', hran⟩ := h.ran (by rw [hroute]; rfl)
  have hread : requests ((World.after X cfg es).relay X) call.auth call.query u = .ok (v, u') := by
    have hrun := hran.run
    unfold readRoute at hrun
    dsimp only at hrun
    generalize call.route = route at hroute hrun
    subst hroute
    exact hrun
  obtain ⟨p, taken, more, hfilters, hturned, hanswer⟩ := requests_ok hread
  refine ⟨c, u, u', p, taken, more, ⟨_, hran⟩, hfilters, hturned, fun hgen => ?_⟩
  have hoffered : u.cell.store.Offered := by
    rw [hran.start]
    exact store_offered X cfg es id hran.live
  rw [listedRequests_eq hoffered, hran.start] at hanswer
  rw [Page.requestRows, hgen, hran.start]
  exact hanswer

/-- Pages that list `rows` from a key on, for one device. -/
structure RequestListing (X : Crypto) (cfg : RelayConfig) (cut : Chain) (device : Option String)
    (rows : List OfferHistoryRow) (key : String) (pages : List (Call × Json)) : Prop where
  turning : Turning X cfg cut pages
  device : ∀ x ∈ pages, x.1.auth.device = device
  listed : ∃ taken, taken <+: above OfferHistoryRow.requestId Json.textLt key rows ∧
    pages.flatMap (a ·.2 "items") = taken.map (·.state.item X) ∧
    ∀ x, pages.getLast? = some x → x.2.get "has_more" = .bool false →
      taken = above OfferHistoryRow.requestId Json.textLt key rows

theorem RequestPage.listing {c : Chain} {u u' : Work} {p : Page} {taken : List OfferHistoryRow}
    {more : Bool} (h : RequestPage X cfg id es ev call v c u u' p taken more)
    (hgen : p.cut.generation = c.generation) :
    RequestListing X cfg p.cut call.auth.device (p.requestRows u.cell.store call.auth.device) p.key
      [(call, v)] := by
  have hanswer := h.answer hgen
  have hitems : a v "items" = taken.map (·.state.item X) := by
    rw [a, hanswer.finished.items]
    rfl
  have hlimits : ((World.after X cfg es).relay X).cfg.limits = cfg.limits :=
    (after_bounded X cfg es).limits
  obtain ⟨m, hran⟩ := h.ran
  refine ⟨List.forall_mem_singleton.mpr ⟨⟨hanswer.finished.logId, hanswer.finished.headSeq⟩,
      ⟨more, hanswer.finished.more, h.turned.next_null, fun hmore => ?_⟩,
      ⟨p.limit, hlimits ▸ h.turned.limited, ?_⟩, hran.size⟩,
    List.forall_mem_singleton.mpr rfl,
    ⟨taken, hanswer.front, by rw [List.flatMap_singleton, hitems], fun x hx hdone => ?_⟩⟩
  · rw [hitems]
    exact fun hnil => hanswer.progress hmore (List.map_eq_nil_iff.mp hnil)
  · rw [hitems, List.length_map]
    exact hanswer.limit
  · obtain rfl := Option.some.inj hx
    exact hanswer.all (Json.bool.inj (hanswer.finished.more.symm.trans hdone))

theorem ofOption_inj {x y : Option String} (h : Json.ofOption x = Json.ofOption y) : x = y := by
  cases x <;> cases y <;> first | rfl | cases h
  rfl

/-- A page and the pages after it. -/
theorem RequestListing.cons {cut : Chain} {device : Option String} {rows : List OfferHistoryRow}
    {key : String} {taken : List OfferHistoryRow} {rest : List (Call × Json)}
    (hone : RequestListing X cfg cut device rows key [(call, v)])
    (hfront : taken <+: above OfferHistoryRow.requestId Json.textLt key rows)
    (hitems : a v "items" = taken.map (·.state.item X))
    (hrest : RequestListing X cfg cut device rows
      (reached OfferHistoryRow.requestId key taken) rest)
    (hnonempty : rest ≠ [])
    (hincreasing : Increasing OfferHistoryRow.requestId Json.textLt rows) :
    RequestListing X cfg cut device rows key ((call, v) :: rest) := by
  obtain ⟨taken', hfront', hitems', hended⟩ := hrest.listed
  refine ⟨List.forall_mem_cons.mpr ⟨hone.turning _ List.mem_cons_self, hrest.turning⟩,
    List.forall_mem_cons.mpr ⟨hone.device _ List.mem_cons_self, hrest.device⟩,
    taken ++ taken', textLt_strict.prefix_append hincreasing hfront hfront', ?_,
    fun x hx hdone => ?_⟩
  · rw [List.flatMap_cons, hitems, hitems', List.map_append]
  · rw [List.getLast?_cons_of_ne_nil hnonempty] at hx
    rw [textLt_strict.above_eq_append hincreasing hfront, hended x hx hdone]

/-- Following the cursors, from a page on. -/
theorem Paged.requestListing (h : Paged X cfg id es pages fs) :
    ∀ call v rest, pages = (call, v) :: rest → call.route = .requestsGet →
      ∃ ev c u u' p taken more, RequestPage X cfg id es ev call v c u u' p taken more ∧
        (p.cut.generation = c.generation →
          n p.extra "offer_version" ≤ u.cell.store.offerHistory.length →
          RequestListing X cfg p.cut call.auth.device
            (p.requestRows u.cell.store call.auth.device) p.key pages) := by
  induction h with
  | last h =>
      rintro call v rest hpages hroute
      obtain ⟨he, rfl⟩ := List.cons.inj hpages
      obtain ⟨rfl, rfl⟩ := Prod.mk.inj he
      obtain ⟨c, u, u', p, taken, more, hpage⟩ := h.requestPage hroute
      exact ⟨_, c, u, u', p, taken, more, hpage, fun hgen _ => hpage.listing hgen⟩
  | @next es ev call v token gap call' v' pages fs h hnext hcursor hsame' hrest ih =>
      rintro call v rest hpages hroute
      obtain ⟨he, rfl⟩ := List.cons.inj hpages
      obtain ⟨rfl, rfl⟩ := Prod.mk.inj he
      obtain ⟨c, u, u', p, taken, more, hpage⟩ := h.requestPage hroute
      obtain ⟨ev', c', t, t', p', taken', more', hpage', hlisting⟩ :=
        ih _ _ _ rfl (hsame'.trans hroute)
      refine ⟨_, c, u, u', p, taken, more, hpage, fun hgen hversion => ?_⟩
      obtain ⟨m, hran⟩ := hpage.ran
      obtain ⟨m', hran'⟩ := hpage'.ran
      obtain ⟨rfl, hfrom, -, hgen', -⟩ :=
        Turned.resumed hran hran' hpage.turned hpage'.turned hnext hcursor
      have hcut : p'.cut = p.cut := hfrom.cut
      have hextra : p'.extra = p.extra := hfrom.extra
      have hkey : p'.key = reached OfferHistoryRow.requestId p.key taken := hfrom.key
      have hdevice : call'.auth.device = call.auth.device := by
        have hfilters : p'.filters = p.filters := hfrom.filters
        rw [hpage'.filters, hpage.filters] at hfilters
        simp only [Json.obj.injEq, List.cons.injEq, Prod.mk.injEq, true_and, and_true] at hfilters
        exact ofOption_inj hfilters
      have hfront : u.cell.store.offerHistory <+: t.cell.store.offerHistory := by
        rw [hran.start, hran'.start]
        exact (store_decides X cfg es _ id hran'.live).versions
      have hoffered : u.cell.store.Offered := by
        rw [hran.start]
        exact store_offered X cfg es id hran.live
      have hoffered' : t.cell.store.Offered := by
        rw [hran'.start]
        exact store_offered X cfg _ id hran'.live
      have hrows : p'.requestRows t.cell.store call'.auth.device =
          p.requestRows u.cell.store call.auth.device := by
        rw [Page.requestRows, Page.requestRows, hcut, hextra, hdevice]
        exact requestList_later hoffered' hfront hversion
      have htail := hlisting hgen' (hextra ▸ hversion.trans hfront.length_le)
      rw [hrows, hcut, hdevice, hkey] at htail
      have hanswer := hpage.answer hgen
      refine (hpage.listing hgen).cons hanswer.front ?_ htail (List.cons_ne_nil _ _)
        (requestList_increasing hoffered)
      rw [a, hanswer.finished.items]
      rfl

end Pages

/-- The pages of the enrollment requests show the offers as they stood when the
first page was answered: those with a request that the device may see, each
once and in the order of their identifiers, and at the end all of them. A later
page goes to the same device only. -/
theorem request_pages (X : Crypto) (cfg : RelayConfig) (id : String) {es fs : List Event}
    {call : Call} {v : Json} {rest : List (Call × Json)}
    (hpaged : Paged X cfg id es ((call, v) :: rest) fs) (hroute : call.route = .requestsGet)
    (hfirst : query call.query "cursor" = none) {c : Chain}
    (hc : (storeAfter X cfg es id).chain = some c) :
    Turning X cfg c ((call, v) :: rest) ∧
      (∀ x ∈ rest, x.1.auth.device = call.auth.device) ∧ ∃ taken : List OfferRow,
      ((call, v) :: rest).flatMap (a ·.2 "items") = taken.map (·.state.item X) ∧
      (∀ r ∈ taken, r ∈ (storeAfter X cfg es id).offers ∧
        r.state.visible c.generation call.auth.device = true) ∧
      (taken.map (·.requestId)).Pairwise (fun x y => Json.textLt x y = true) ∧
      ∀ x, ((call, v) :: rest).getLast? = some x → x.2.get "has_more" = .bool false →
        ∀ r ∈ (storeAfter X cfg es id).offers,
          r.state.visible c.generation call.auth.device = true → r.requestId ≠ "" →
          r ∈ taken := by
  obtain ⟨ev, c', u, u', p, taken, more, hpage, hlisting⟩ :=
    hpaged.requestListing call v rest rfl hroute
  obtain ⟨m, hran⟩ := hpage.ran
  obtain rfl := Option.some.inj (hran.stored.symm.trans hc)
  obtain ⟨u₁, hopened⟩ := hpage.turned.opened
  obtain ⟨hcut, hkey, -, hextra⟩ := page_first hopened hfirst
  have hchain : p.cut = c' := hcut.trans (congrArg Cell.chain hran.start)
  have hstore : u.cell.store = storeAfter X cfg es id := by rw [hran.start]
  have hversion : n p.extra "offer_version" = (storeAfter X cfg es id).offerHistory.length := by
    rw [hextra, hstore]
    rfl
  have hoffered := store_offered X cfg es id hran.live
  have hall := hlisting (by rw [hchain]) (by rw [hversion, hstore])
  rw [Page.requestRows, hversion, hchain, hkey, hstore] at hall
  obtain ⟨shown, hfront, hitems, hended⟩ := hall.listed
  have hmem : ∀ h ∈ shown, h ∈ offerCopying.latest (storeAfter X cfg es id).offerHistory
      (storeAfter X cfg es id).offerHistory.length ∧
      h.state.visible c'.generation call.auth.device = true := fun h hh =>
    mem_requestList.mp (mem_above.mp (hfront.subset hh)).1
  obtain ⟨rows, hkeys, hstates, hrows⟩ := hoffered.latest_rows fun h hh => (hmem h hh).1
  refine ⟨hall.turning, fun x hx => hall.device x (List.mem_cons_of_mem _ hx), rows, ?_,
    fun r hr => ⟨hrows r hr, ?_⟩, ?_, fun x hx hdone r hr hvisible hid => ?_⟩
  · have hmapped := congrArg (List.map (OfferState.item X)) hstates
    rw [List.map_map, List.map_map] at hmapped
    rw [hitems]
    exact hmapped.symm
  · have hstate : r.state ∈ shown.map OfferHistoryRow.state := by
      rw [show shown.map OfferHistoryRow.state = rows.map OfferRow.state from hstates.symm]
      exact List.mem_map_of_mem hr
    obtain ⟨h, hh, he⟩ := List.mem_map.mp hstate
    rw [← he]
    exact (hmem h hh).2
  · rw [show rows.map (·.requestId) = shown.map OfferHistoryRow.requestId from hkeys]
    exact List.pairwise_map.mpr (((requestList_increasing hoffered).sublist
      List.filter_sublist).sublist hfront.sublist)
  · obtain ⟨h, hlatest, howner, hcontent⟩ := hoffered.current_latest (Table.find?_of_mem hr)
    have hstate : h.state = r.state := hcontent
    have hin : h ∈ shown := by
      rw [hended x hx hdone, mem_above, mem_requestList, hstate]
      refine ⟨⟨hlatest, hvisible⟩, ?_⟩
      rw [show h.requestId = r.requestId from howner]
      exact textLt_empty hid
    have hkeyed : r.requestId ∈ rows.map OfferRow.requestId := by
      rw [show rows.map OfferRow.requestId = shown.map OfferHistoryRow.requestId from hkeys,
        ← show h.requestId = r.requestId from howner]
      exact List.mem_map_of_mem hin
    obtain ⟨r', hr', he⟩ := List.mem_map.mp hkeyed
    have hsame := Table.find?_of_mem (hrows r' hr')
    rw [he] at hsame
    obtain rfl := Option.some.inj (hsame.symm.trans (Table.find?_of_mem hr))
    exact hr'

namespace Sample

/-- Two requests are read in two pages, between which the second one is approved. -/
def requestsFirst : List Event :=
  offeredRun ++ perform 3 3 (offerRequest 2 2) ++
    [.request (candidateRequest 2) (oracle 1500 8),
      .request (readRequest .requestsGet 10 requestsPath "" [("limit", "1")]) (oracle 1500 9)]

def requestsNext : List Event :=
  perform 6 6 (approvalRequest 4 2) ++
    [.request (readRequest .requestsGet 11 requestsPath ""
      [("cursor", "a100007"), ("limit", "100")]) (oracle 1500 16)]

theorem requestsPages_facts :
    (readsTwice requestsFirst 5 (oracle 1500 10) requestsNext 7 (oracle 1500 17) .requestsGet
        "a100007" &&
      (storeAfter crypto cfg requestsFirst chainId).chain.isSome) = true := by
  decide +kernel

end Sample

/-- The second request is approved between two pages; both go to one device. -/
theorem request_pages_two : ∃ (call call' : Call) (v v' : Json) (fs : List Event)
    (taken : List OfferRow),
    Paged Sample.crypto Sample.cfg Sample.chainId Sample.requestsFirst [(call, v), (call', v')] fs ∧
    call'.auth.device = call.auth.device ∧
    a v "items" ++ a v' "items" = taken.map (·.state.item Sample.crypto) ∧
    v'.get "has_more" = .bool false := by
  have hfacts := Sample.requestsPages_facts
  rw [Bool.and_eq_true] at hfacts
  obtain ⟨htwice, hchain⟩ := hfacts
  obtain ⟨call, call', v, v', fs, hpaged, hroute, hfirst, hdone⟩ := Sample.reads_twice htwice
  obtain ⟨c, hc⟩ := Option.isSome_iff_exists.mp hchain
  obtain ⟨-, hdevice, taken, hitems, -⟩ :=
    request_pages Sample.crypto Sample.cfg Sample.chainId hpaged hroute hfirst hc
  rw [List.flatMap_cons, List.flatMap_singleton] at hitems
  exact ⟨call, call', v, v', fs, taken, hpaged, hdevice _ List.mem_cons_self, hitems, hdone⟩

end PallaSync
