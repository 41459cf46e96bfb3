import PallaSync.Read

/-!
# Chunked export

The export of a chain is ten groups of lines in a fixed order; a chunk is as
many of them as the limit and the response size allow, and the cursor names
the group and the key to go on from. Both the data cut and the transparency
cut are pinned by the first chunk.
-/

namespace PallaSync

open Atomic

/-- `printf('%016d', seq)` -/
def padded (seq : Nat) : String :=
  let digits := (toString seq).toList
  String.ofList (List.replicate (16 - digits.length) '0' ++ digits)

/-- The order of receipts: positions first, parts by receipt identifier. -/
def receiptSortKey (r : ReceiptRow) : String :=
  match r.seq with
  | none => "z" ++ r.receipt.receiptId
  | some seq => padded seq ++ ":" ++ r.logId

/-- Rows in key order, above a key, bounded in number and size, as lines. -/
def keyedLines {ρ : Type} (limit : Nat) (after : String) (key : ρ → String)
    (size : ρ → Nat) (line : ρ → Json) (rows : List ρ) :
    Except ApiError (List (String × Json)) := do
  let above := (rows.filter fun r => Json.textLt after (key r)).insertionSort
    fun x y => Json.textLe (key x) (key y) = true
  let fitting ← boundedRows size 0 true (above.take limit)
  pure (fitting.map fun r => (key r, line r))

/-- As `keyedLines`, for numbered rows. -/
def numberedLines {ρ : Type} (limit after : Nat) (key : ρ → Nat)
    (size : ρ → Nat) (line : ρ → Json) (rows : List ρ) :
    Except ApiError (List (String × Json)) := do
  let above := (rows.filter fun r => decide (after < key r)).insertionSort
    fun x y => key x ≤ key y
  let fitting ← boundedRows size 0 true (above.take limit)
  pure (fitting.map fun r => (toString (key r), line r))

def bodySize (X : Crypto) (r : ObjectRow) : Nat := (r.body.map (Store.size X)).getD 0

/-- The cut's generation has reached the object's. -/
def withinGeneration (c : Chain) (b : Json) : Bool :=
  (b.get "generation").asNat.any (· ≤ c.generation)

/-- A compaction or a snapshot part the cut has evidence of. -/
def publishedObject (st : Store) (c : Chain) (kind : Kind) (r : ObjectRow) : Bool :=
  decide (r.kind = kind) && r.body.any (withinGeneration c) &&
    (st.receipt kind r.objectId).all fun x => x.transparencyIndex ≤ c.transparencyIndex

/-- A control object outside the cut's log. -/
def controlObject (c : Chain) (r : ObjectRow) : Bool :=
  [Kind.parameters, .device, .epoch, .envelope, .admin].contains r.kind &&
    r.body.any (withinGeneration c) && r.logId != some c.logId

def controlKey (r : ObjectRow) : String := r.kind.text ++ ":" ++ r.objectId

/-- The entries of former logs with the digest their receipts record. -/
def sourceReceipts (st : Store) (c : Chain) : List (String × LogEntry) :=
  st.log.rows.filterMap fun l =>
    if l.logId = c.logId then none
    else do
      let entry ← l.entry
      let r ← st.receipts.rows.find? fun r => r.logId == l.logId && r.seq == some l.seq
      let digest ← r.receipt.entryHash
      if r.receipt.transparencyIndex ≤ c.transparencyIndex then some (digest, entry) else none

def labelled (kind member : String) (v : Json) : Json :=
  .obj (Json.setMember member v [("kind", .str kind)])

/-- The next lines of a group, each with the key it advances to. -/
def group (X : Crypto) (st : Store) (p : Page) (phase : Nat) :
    Except ApiError (List (String × Json)) :=
  let c := p.cut
  let limit := p.limit + 1
  let byId {ρ : Type} (key : ρ → String) := keyedLines limit p.key key
  match phase with
  | 0 => numberedLines limit (castInteger p.key) (·.seq) (entrySize X)
      (fun r => labelled "log" "entry" ((r.entry.map LogEntry.toJson).getD .null))
      ((logRows st c.logId 0 c.headSeq).filter (·.entry.isSome))
  | 1 => byId (·.objectId) (bodySize X)
      (fun r => labelled "boundary" "compaction" (r.body.getD .null))
      (st.objects.select fun r => publishedObject st c .compaction r &&
        c.boundaryCompactionId == some r.objectId)
  | 2 => byId (·.objectId) (bodySize X)
      (fun r => labelled "compaction" "compaction" (r.body.getD .null))
      (st.objects.select (publishedObject st c .compaction))
  | 3 => byId controlKey (bodySize X)
      (fun r => (labelled "control" "object" (r.body.getD .null)).set "object_type"
        (.str r.kind.text))
      (st.objects.select (controlObject c))
  | 4 => byId (·.objectId) (fun r => r.objectHash.length)
      (fun r => (labelled "removed_id" "record_id" (.str r.objectId)).set "record_hash"
        (.str r.objectHash))
      (st.objects.select fun r => decide (r.kind = .record) && r.body.isNone)
  | 5 => byId (·.objectId) (bodySize X)
      (fun r => labelled "snapshot_part" "record" (r.body.getD .null))
      (st.objects.select (publishedObject st c .snapshotPart))
  | 6 => byId (·.1) (fun r => Store.size X r.2.toJson)
      (fun r => labelled "source_receipt" "receipt" r.2.toJson) (sourceReceipts st c)
  | 7 => byId receiptSortKey (fun r => Store.size X r.receipt.toJson)
      (fun r => labelled "upload_receipt" "receipt" r.receipt.toJson)
      (st.receipts.select fun r => decide (r.receipt.transparencyIndex ≤ c.transparencyIndex))
  | 8 => numberedLines limit (castInteger p.key) (·.idx)
      (fun r => Store.size X r.entry.toJson)
      (fun r => labelled "transparency_entry" "entry" r.entry.toJson)
      (transparencyRows st c.transparencyId 0 c.transparencyIndex)
  | _ => .ok (if p.key = "" then
      [("head", labelled "transparency_head" "head" (p.extra.get "head"))] else [])

/-- The client object a line carries. -/
def lineObject (item : Json) : Option Json :=
  if s item "kind" = "log" then some ((item.get "entry").get "object")
  else if s item "kind" = "control" then some (item.get "object")
  else if s item "kind" = "source_receipt" then some ((item.get "receipt").get "object")
  else none

/-- Without recovery authority a recovery envelope leaves at most its digest. -/
def protect (X : Crypto) (item : Json) (include? : Bool) : Option Json :=
  if !include? && (lineObject item).any isRecovery then
    if s item "kind" = "log" then
      some (.obj [("kind", .str "omitted"),
        ("object_hash", .str (X.objectHash ((item.get "entry").get "object"))),
        ("reason", .str "recovery_authority"),
        ("relay_seq", (item.get "entry").get "relay_seq")])
    else none
  else some item

/-- The progress of a chunk: lines so far (last first), how many of them count
and their size, and the position reached. -/
structure Chunk where
  lines : List Json
  count : Nat
  bytes : Nat
  page : Page

def Chunk.push (X : Crypto) (k : Chunk) (line : Json) : Chunk :=
  { k with
    lines := line :: k.lines
    count := k.count + 1
    bytes := k.bytes + Store.size X line + 1 }

/-- Write a group's lines until one does not fit: the chunk, and whether all
of them were written. -/
def writeLines (X : Crypto) (include? : Bool) :
    List (String × Json) → Chunk → Chunk × Bool
  | [], k => (k, true)
  | (key, item) :: rest, k =>
      match protect X item include? with
      | some line =>
          if k.page.limit ≤ k.count ∨
              responseMax - 4096 < k.bytes + Store.size X line + 1 then (k, false)
          else
            let k := k.push X line
            writeLines X include? rest { k with page := { k.page with key } }
      | none => writeLines X include? rest { k with page := { k.page with key } }

/-- The groups in turn. Every round writes lines of a group or moves on to
the next one, so `fuel` above the number of rows and groups suffices. -/
def exportGroups (X : Crypto) (st : Store) (include? : Bool) :
    Nat → Chunk → Except ApiError Chunk
  | 0, k => .ok k
  | fuel + 1, k => do
      let phase := n k.page.extra "phase"
      if 10 ≤ phase then pure k
      else do
        let rows ← group X st k.page phase
        let (k, all) := writeLines X include? rows k
        if !all then pure k
        else do
          let more ← group X st k.page phase
          if !more.isEmpty then
            if k.page.limit ≤ k.count then pure k else exportGroups X st include? fuel k
          else
            let page := { k.page with
              key := "", extra := k.page.extra.set "phase" (.num (phase + 1)) }
            let k := { k with page }
            if k.page.limit ≤ k.count then pure k else exportGroups X st include? fuel k

def exportFuel (st : Store) : Nat :=
  st.log.rows.length + 4 * st.objects.rows.length + st.receipts.rows.length +
    st.transparency.rows.length + 12

def exportHeader (X : Crypto) (cut : Chain) (chainId : String) (include? : Bool) : Json :=
  .obj [("chain_id", .str chainId), ("generation", .num cut.generation),
    ("head_hash", .str cut.headHash), ("head_seq", .num cut.headSeq),
    ("include_recovery", .bool include?), ("kind", .str "header"),
    ("log_id", .str cut.logId), ("protocol", .str "pallasync/3"),
    ("relay_key_id", .str X.keyId), ("relay_public_key", .str (X.base64Encode X.relayPublicKey)),
    ("transparency_head_hash", .str cut.transparencyHash),
    ("transparency_head_index", .num cut.transparencyIndex),
    ("transparency_id", .str cut.transparencyId)]

def includeRecovery (q : Query) : Except ApiError Bool :=
  match query q "include_recovery" with
  | none => .ok false
  | some text =>
      if text = "true" then .ok true
      else if text = "false" then .ok false
      else .error (err .invalidField)

/-- The lines of one chunk. -/
def exportChain (R : Relay) (auth : Auth) (q : Query) : Tx (List Json) := do
  let X := R.crypto
  lift (allowed q ["cursor", "limit", "include_recovery"])
  let include? ← lift (includeRecovery q)
  failIf (include? && !auth.admin) (err .envelopeAccessDenied)
  let p ← page R .exportChain q (.obj [("include_recovery", .bool include?)])
  let c ← chain
  failIf (decide (p.cut.minAvailableSeq < c.minAvailableSeq)) (pruned c)
  let head ← look (publishedHead · c.transparencyId c.transparencyIndex)
  let p ← if (query q "cursor").isSome then pure p
    else do
      let head ← require head (err .storageUnavailable)
      pure { p with extra := .obj [("head", head.toJson), ("phase", .num 0)] }
  let header := exportHeader X p.cut c.chainId include?
  let start : Chunk := {
    lines := [header], count := 0, bytes := Store.size X header + 1, page := p }
  let k ← check fun st _ => exportGroups X st include? (exportFuel st) start
  let more := decide (n k.page.extra "phase" < 10)
  let next ← nextCursor R k.page more
  let last := Json.obj [("has_more", .bool more), ("kind", .str "continuation"),
    ("next_cursor", next)]
  failIf (decide (responseMax < k.bytes + Store.size X last + 1)) (err .payloadTooLarge)
  pure (k.lines.reverse ++ [last])

end PallaSync
