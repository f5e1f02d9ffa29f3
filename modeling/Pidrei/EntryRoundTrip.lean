import Pidrei.CompactionEffect
import Pidrei.MessageRoundTrip
import Pidrei.SessionFile

/-!
Writing an entry and decoding it. Everything comes back with its free-form
values in wire form, except the content of a custom message entry: its blocks
are not decoded and stay JSON values.
-/
namespace Pidrei.EntryRoundTrip

open List
open OrderedMap (lookup_cons_ite)

open Values Messages MessageWire MessageRoundTrip SessionEntries SessionManager SessionFile
open ContextProjection

/-- The content of a custom message entry after a reload. -/
def reloadContent : Content → Content
  | .blocks blocks =>
    .blocks (blocks.map (fun block => .raw (toWireValue (serializeContentBlock block))))
  | content => content

def reloadPayload : Payload → Payload
  | .message message => .message (wireMessage message)
  | .compaction summary firstKept tokensBefore details usage fromHook systemMessage =>
    .compaction summary firstKept tokensBefore (toWireValue details) usage fromHook
      (systemMessage.map wireSystemMessage)
  | .branchSummary fromId summary details usage fromHook =>
    .branchSummary fromId summary (toWireValue details) usage fromHook
  | .custom customType data => .custom customType (toWireValue data)
  | .customMessage customType content display details =>
    .customMessage customType (reloadContent content) display (toWireValue details)
  | .contextEdit targetId replacement => .contextEdit targetId (replacement.map wireContent)
  | payload => payload

/-- The entry that decoding a written entry gives. -/
def reloadEntry (entry : Entry) : Entry := { entry with payload := reloadPayload entry.payload }

/-- Messages and replacements hold decoded content. -/
def TypedPayload : Payload → Prop
  | .message message => TypedMessage message
  | .compaction _ _ _ _ _ _ systemMessage => ∀ m, systemMessage = some m → TypedContent m.content
  | .contextEdit _ replacement => ∀ content, replacement = some content → TypedContent content
  | .customMessage _ content _ _ => TypedContent content
  | _ => True

variable (value : Option String) (message : Option SystemMessage) (content : Content)
   (entry : Entry) (id : String) (env : Environment)

theorem asOptString_serialize :
    asOptString (some (serializeOptString value)) = some value := by cases value <;> rfl

theorem toWireValue_serializeOptString :
    toWireValue (serializeOptString value) = serializeOptString value := by cases value <;> rfl

theorem parseMessage_dict {m : SystemMessage} (h : TypedContent m.content) :
    decodeSystemMessage (some (serializeSystemMessage m)) = some (some m) := by
  have hparse : parseMessage (serializeSystemMessage m) = some (.system m) :=
    parseMessage_serializeMessage (show TypedMessage (.system m) from h)
  obtain ⟨fields, hfields⟩ : ∃ fields, serializeSystemMessage m = .dict fields := ⟨_, rfl⟩
  rw [hfields] at hparse ⊢
  simp only [decodeSystemMessage, hparse]

theorem decodeSystemMessage_serialize (h : ∀ m, message = some m → TypedContent m.content) :
    decodeSystemMessage ((message.map wireSystemMessage).map serializeSystemMessage) =
      some (message.map wireSystemMessage) := by
  cases message with
  | none => rfl
  | some m => exact parseMessage_dict (typedContent_wire (h m rfl))

theorem toWireItems_putUsage (usage : Option Usage) :
    toWireItems (put "usage" (usage.map serializeUsage)) = put "usage" (usage.map serializeUsage) := by
  have husage := toWireItems_put_map "usage" serializeUsage id usage toWireValue_serializeUsage
  rwa [Option.map_id, id] at husage

theorem toWireItems_putSystemMessage :
    toWireItems (put "systemMessage" (message.map serializeSystemMessage)) =
      put "systemMessage" ((message.map wireSystemMessage).map serializeSystemMessage) :=
  toWireItems_put_map "systemMessage" serializeSystemMessage wireSystemMessage message
    toWireValue_serializeSystemMessage

theorem rawContent_reload :
    rawContent (some (toWireValue (serializeContent content))) = some (reloadContent content) := by
  cases content with
  | missing => rfl
  | text s => rfl
  | blocks blocks =>
    have hlist : ∀ blocks : List ContentBlock, toWireList (blocks.map serializeContentBlock) =
        blocks.map (fun block => toWireValue (serializeContentBlock block)) := by
      intro blocks
      induction blocks with
      | nil => rfl
      | cons block rest ih => simp only [map_cons, toWireList, ih]
    simp only [serializeContent, toWireValue, hlist, rawContent, reloadContent, map_map]
    rfl

theorem decodePayload_fields (base : Items) (payload : Payload) (h : TypedPayload payload)
    (htype : ∀ rest : Items, (base ++ rest).lookup "type" = some (.str (entryType payload)))
    (hother : ∀ (rest : Items) (key : String), key ≠ "type" → key ≠ "id" → key ≠ "parentId" →
      key ≠ "timestamp" → (base ++ rest).lookup key = rest.lookup key) :
    decodePayload (base ++ toWireItems (payloadToWire payload)) = some (reloadPayload payload) := by
  unfold decodePayload
  rw [htype]
  cases payload with
  | message message =>
    have hparse := parseMessage_written h
    simp [entryType, hother, payloadToWire, toWireItems, hparse, reloadPayload]
  | thinkingLevelChange | sessionInfo =>
    simp [entryType, hother, payloadToWire, toWireItems, toWireValue, requireString, reloadPayload]
  | modelChange provider modelId =>
    simp [entryType, hother, payloadToWire, toWireItems, toWireValue, lookup_cons_ite,
      requireString, reloadPayload]
  | usage kind provider model usage note =>
    simp only [payloadToWire, toWireItems_append, toWireItems_putString, toWireItems, toWireValue,
      toWireValue_serializeUsage]
    simp [entryType, hother, putString, lookup_cons_ite, requireString, reloadPayload,
      asValue]
  | compaction summary firstKept tokensBefore details usage fromHook systemMessage =>
    have hsystem := decodeSystemMessage_serialize systemMessage h
    simp only [payloadToWire, toWireItems_append, toWireItems_putValue, toWireItems_putUsage,
      toWireItems_putBool, toWireItems_putSystemMessage, toWireItems, toWireValue, int,
      toWireValue_toWireValue]
    simp [entryType, hother, putValue, putBool, lookup_append, lookup_cons_ite,
      requireString, requireInt, reloadPayload, parseUsage_put, hsystem, -Option.map_map]
  | branchSummary fromId summary details usage fromHook =>
    simp only [payloadToWire, toWireItems_append, toWireItems_putValue, toWireItems_putUsage,
      toWireItems_putBool, toWireItems, toWireValue, toWireValue_toWireValue]
    simp [entryType, hother, putValue, putBool, lookup_append, lookup_cons_ite,
      requireString, reloadPayload, parseUsage_put]
  | custom customType data =>
    simp only [payloadToWire, toWireItems_append, toWireItems_putValue, toWireItems, toWireValue,
      toWireValue_toWireValue]
    simp [entryType, hother, putValue, lookup_cons_ite, requireString, reloadPayload]
  | customMessage customType content display details =>
    have hcontent := rawContent_reload content
    simp only [payloadToWire, toWireItems_append, toWireItems_putValue, toWireItems, toWireValue,
      toWireValue_toWireValue]
    simp [entryType, hother, putValue, lookup_cons_ite, requireString, requireBool,
      reloadPayload, hcontent]
  | contextEdit targetId replacement =>
    cases replacement with
    | none =>
      simp [entryType, hother, payloadToWire, toWireItems, toWireValue,
        lookup_cons_ite, requireString, reloadPayload, decodeReplacement]
    | some content =>
      have hcontent := parseContent_serialize (typedContent_wire (h content rfl))
      rw [← toWireValue_serializeContent] at hcontent
      simp [entryType, hother, payloadToWire, toWireItems, toWireValue,
        lookup_cons_ite, requireString, reloadPayload, decodeReplacement, hcontent]
  | label targetId label =>
    simp only [payloadToWire, toWireItems_append, toWireItems_putString, toWireItems, toWireValue]
    simp [entryType, hother, putString, lookup_cons_ite, requireString, reloadPayload]

theorem decodeEntry_written {entry : Entry} (h : TypedPayload entry.payload) :
    decodeEntry (dumpJson (entryToWire entry)) = some (reloadEntry entry) := by
  have hpayload := decodePayload_fields [("type", .str (entryType entry.payload)),
    ("id", .str entry.id), ("parentId", serializeOptString entry.parentId),
    ("timestamp", .str entry.timestamp)] entry.payload h
    (fun rest => by simp)
    (fun rest key h1 h2 h3 h4 => by simp [lookup_cons_ite, h1, h2, h3, h4])
  simp only [dumpJson, entryToWire, toWireValue, toWireItems_append, toWireItems,
    toWireValue_serializeOptString, decodeEntry, hpayload]
  simp [lookup_cons_ite, requireString, asOptString_serialize, reloadEntry]

theorem decodeHeader_written (header : SessionHeader) :
    decodeHeader (dumpJson (headerToWire header)) = some header := by
  simp only [dumpJson, headerToWire, toWireValue, toWireItems_append, toWireItems_putString,
    toWireItems, int]
  simp [decodeHeader, putString, lookup_cons_ite, requireString, int]

/-! The context of reloaded entries. -/

/-- A custom message entry whose content has blocks does not come back as it was. -/
def LosesBlocks (entry : Entry) : Prop :=
  ∃ customType block blocks display details,
    entry.payload = .customMessage customType (.blocks (block :: blocks)) display details

theorem isCompaction_reload : (reloadEntry entry).isCompaction = entry.isCompaction := by
  obtain ⟨id, parentId, timestamp, payload⟩ := entry
  cases payload <;> rfl

theorem firstKept_reload : (reloadEntry entry).firstKeptEntryId = entry.firstKeptEntryId := by
  obtain ⟨id, parentId, timestamp, payload⟩ := entry
  cases payload <;> rfl

theorem isSystem_wireMessage (message : Message) :
    (wireMessage message).isSystem = message.isSystem := by cases message <;> rfl

theorem isSystem_reload : (reloadEntry entry).isSystem = entry.isSystem := by
  obtain ⟨id, parentId, timestamp, payload⟩ := entry
  cases payload with
  | message message => exact isSystem_wireMessage message
  | _ => rfl

theorem editOf_reload (entry : Entry) :
    editOf id (reloadEntry entry) = (editOf id entry).map (Option.map wireContent) := by
  obtain ⟨entryId, parentId, timestamp, payload⟩ := entry
  cases payload with
  | contextEdit targetId replacement =>
    by_cases h : targetId = id <;> simp [editOf, reloadEntry, reloadPayload, h]
  | _ => rfl

theorem lastEdit_reload (entries : List Entry) :
    lastEdit id (entries.map reloadEntry) = (lastEdit id entries).map (Option.map wireContent) := by
  induction entries using reverseRecOn with
  | nil => rfl
  | append_singleton entries entry ih =>
    have hlast : ∀ entry : Entry, lastEdit id [entry] = editOf id entry := by
      intro entry
      rw [lastEdit, contextEdits_eq, foldl_cons, foldl_nil, get?_applyEdit]
      exact Option.or_none
    rw [map_append, map_cons, map_nil, lastEdit_append, lastEdit_append, ih, hlast,
      hlast, editOf_reload]
    cases editOf id entry <;> rfl

theorem withContent_wire (message : Message) :
    withContent (wireMessage message) = wireMessage (withContent message) := by
  cases message with
  | system m =>
    cases h : m.content <;> simp [withContent, wireMessage, wireSystemMessage, wireContent, h]
  | user m => cases h : m.content <;> simp [withContent, wireMessage, wireContent, h]
  | assistant m => cases h : m.content <;> simp [withContent, wireMessage, wireContent, h]
  | toolResult m => cases h : m.content <;> simp [withContent, wireMessage, wireContent, h]
  | _ => rfl

theorem contentBlocks_wire :
    contentBlocks (wireContent content) = wireContent (contentBlocks content) := by
  cases content <;> rfl

theorem replaceContent_wire (message : Message) :
    replaceContent (wireContent content) (wireMessage message) =
      wireMessage (replaceContent content message) := by
  cases message <;> simp [replaceContent, wireMessage, contentBlocks_wire]

theorem contextMessages_reload {entry : Entry} (h : ¬ LosesBlocks entry) :
    sessionEntryToContextMessages env (reloadEntry entry) =
      (sessionEntryToContextMessages env entry).map wireMessage := by
  obtain ⟨id, parentId, timestamp, payload⟩ := entry
  cases payload with
  | message message =>
    simp [sessionEntryToContextMessages, reloadEntry, reloadPayload, withContent_wire]
  | customMessage customType content display details =>
    cases content with
    | missing => rfl
    | text s => rfl
    | blocks blocks =>
      cases blocks with
      | nil => rfl
      | cons block blocks => exact absurd ⟨customType, block, blocks, display, details, rfl⟩ h
  | branchSummary fromId summary details usage fromHook =>
    by_cases hsummary : summary = "" <;>
      simp [sessionEntryToContextMessages, reloadEntry, reloadPayload, hsummary,
        createBranchSummaryMessage, wireMessage]
  | compaction summary firstKept tokensBefore details usage fromHook systemMessage =>
    cases systemMessage <;>
      simp [sessionEntryToContextMessages, reloadEntry, reloadPayload,
        createCompactionSummaryMessage, wireMessage]
  | _ => rfl

theorem projectContextEntry_reload {entry : Entry} (h : ¬ LosesBlocks entry)
    (edit : Option (Option Content)) :
    projectContextEntry env (reloadEntry entry) (edit.map (Option.map wireContent)) =
      (projectContextEntry env entry edit).map wireMessage := by
  cases edit with
  | none => exact contextMessages_reload env h
  | some replacement =>
    cases replacement with
    | none => rfl
    | some content =>
      simp only [projectContextEntry, Option.map_some, contextMessages_reload env h, map_map]
      congr 1
      funext message
      exact replaceContent_wire content message

theorem contributed_reload {edits edits' : OrderedMap String (Option Content)}
    (hedits : ∀ id, edits'.get? id = (edits.get? id).map (Option.map wireContent))
    (entries : List Entry) (h : ∀ entry ∈ entries, ¬ LosesBlocks entry) :
    (entries.map reloadEntry).flatMap (contributed env edits') =
      (entries.flatMap (contributed env edits)).map wireMessage := by
  rw [flatMap_map, map_flatMap]
  refine flatMap_congr fun entry hentry => ?_
  unfold contributed
  rw [isCompaction_reload]
  split
  · rfl
  · have hid : (reloadEntry entry).id = entry.id := rfl
    rw [hid, hedits]
    exact projectContextEntry_reload env (h entry hentry) _

theorem fromId_reload (entries : List Entry) :
    fromId id (entries.map reloadEntry) = (fromId id entries).map reloadEntry := by
  induction entries with
  | nil => rfl
  | cons entry rest ih =>
    have hid : (reloadEntry entry).id = entry.id := rfl
    by_cases h : entry.id = id
    · simp [fromId, hid, h]
    · have hcons : ∀ (e : Entry) es, e.id ≠ id → fromId id (e :: es) = fromId id es := by
        intro e es he
        simp [fromId, he]
      rw [map_cons, hcons _ _ h, hcons (reloadEntry entry) _ h, ih]

theorem retained_reload (before after : List Entry) (firstKept : String) :
    retained (before.map reloadEntry) (after.map reloadEntry) firstKept =
      (retained before after firstKept).map reloadEntry := by
  have hsystem : ((fun entry : Entry => !entry.isSystem) ∘ reloadEntry) =
      fun entry => !entry.isSystem := funext fun entry => by simp [isSystem_reload]
  simp only [retained, fromId_reload, filter_map, hsystem, map_append]

theorem projectPath_reload (path : List Entry) (hnodup : (path.map Entry.id).Nodup)
    (h : ∀ entry ∈ path, ¬ LosesBlocks entry) : (projectPath env (path.map reloadEntry)).messages =
      (projectPath env path).messages.map wireMessage := by
  rcases exists_latestCompaction path with hnone | ⟨before, compaction, after, rfl, hcomp, hafter⟩
  · rw [projectPath_messages_none env path hnone, projectPath_messages_none env _ (by
      intro entry hentry
      obtain ⟨original, horiginal, rfl⟩ := mem_map.mp hentry
      rw [isCompaction_reload]
      exact hnone original horiginal)]
    exact contributed_reload env (fun id => lastEdit_reload id path) path h
  · obtain ⟨firstKept, hkept⟩ := exists_firstKept hcomp
    have hfresh : compaction.id ∉ before.map Entry.id := by
      rw [map_append, map_cons, nodup_append] at hnodup
      exact fun hmem => hnodup.2.2 _ hmem _ mem_cons_self rfl
    have hfresh' : (reloadEntry compaction).id ∉ (before.map reloadEntry).map Entry.id := by
      rw [map_map]
      exact hfresh
    have hafter' : ∀ entry ∈ after.map reloadEntry, entry.isCompaction = false := by
      intro entry hentry
      obtain ⟨original, horiginal, rfl⟩ := mem_map.mp hentry
      rw [isCompaction_reload]
      exact hafter original horiginal
    have hedits : ∀ id, (contextEdits ((compaction :: retained before after firstKept).map
        reloadEntry)).get? id = ((contextEdits (compaction ::
          retained before after firstKept)).get? id).map (Option.map wireContent) :=
      fun id => lastEdit_reload id _
    rw [map_append, map_cons,
      projectPath_messages_some env _ _ _ firstKept (by rw [firstKept_reload, hkept])
        (by rw [isCompaction_reload, hcomp]) hafter' hfresh',
      projectPath_messages_some env before after compaction firstKept hkept hcomp hafter hfresh,
      retained_reload, ← map_cons, map_append]
    congr 1
    · have hid : (reloadEntry compaction).id = compaction.id := rfl
      rw [hid, hedits]
      exact projectContextEntry_reload env (h compaction (by simp)) _
    · refine contributed_reload env hedits _ fun entry hentry => h entry ?_
      rcases mem_append.mp hentry with hold | hlater
      · exact mem_append_left _
          ((dropWhile_suffix _).subset (mem_filter.mp hold).1)
      · exact mem_append_right _ (mem_cons_of_mem _ hlater)

end Pidrei.EntryRoundTrip
