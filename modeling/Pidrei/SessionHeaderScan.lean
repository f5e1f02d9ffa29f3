import Pidrei.Library.Lines
import Pidrei.Library.Utf8
import Pidrei.SessionFile

/-!
Two readers of a session file, both reading it in pieces. One loads every entry; the other
looks for the header only and gives up at a limit. The first cuts the pending text at its
newlines, the second the text of each piece.
-/
namespace Pidrei.SessionHeaderScan

open Values PythonText Utf8 SessionFile List
open Incremental (drain)

/-- The pieces that `handle.read(size)` returns until it returns nothing. -/
def reads (size : ℕ) : ℕ → List UInt8 → List (List UInt8)
  | 0, _ => []
  | fuel + 1, bytes =>
    if bytes.take size = [] then [] else bytes.take size :: reads size fuel (bytes.drop size)

/-- The last piece of a text cut at its newlines. -/
def unterminated (text : List Char) : List Char := ((text.splitOn '\n').getLast?).getD []

def terminated (text : List Char) : List (List Char) := (text.splitOn '\n').dropLast

section Reading

-- `json.loads`, `none` where it raises.
variable (parseJson : List Char → Option Value)

def parseSessionEntryLine (line : List Char) : Option Items :=
  if stripped line = [] then none
  else match parseJson line with
    | some (.dict entry) => some entry
    | _ => none

/-- The loop variables of `loadWireEntriesFromFile`; `decoder` is what the incremental decoder
holds back. -/
structure Loading where
  decoder : List UInt8 := []
  pending : List Char := []
  entries : List Items := []

def loadPiece (s : Loading) (data : List UInt8) : Loading :=
  let (text, decoder) := drain replaceStep (s.decoder ++ data)
  { decoder
    pending := unterminated (s.pending ++ text)
    entries := s.entries ++
      (terminated (s.pending ++ text)).filterMap (parseSessionEntryLine parseJson) }

/-- The entries of a file; the newline that an unterminated last line gets is not part of it. -/
def loadWireEntriesFromFile (bufferSize : ℕ) (content : List UInt8) : List Items :=
  let s := (reads bufferSize content.length content).foldl (loadPiece parseJson) {}
  let pending := s.pending ++ flushPending s.decoder
  let entries := s.entries ++ (parseSessionEntryLine parseJson pending).toList
  match entries with
  | [] => []
  | header :: _ => if isHeader header then entries else []

/-- `none` is to keep scanning, an inner `none` an entry that is no header. -/
def parseSessionHeaderCandidate (line : List Char) : Option (Option Items) :=
  if stripped line = [] then none
  else match parseSessionEntryLine parseJson line with
    | none => none
    | some entry => some (if isHeader entry then some entry else none)

inductive Scanned where
  | found (header : Option Items)
  | more (lineChunks : List (List Char))

/-- The loop over the newlines of a piece. -/
def scanPieces : List (List Char) → List (List Char) → Scanned
  | lineChunks, [] => .more lineChunks
  | lineChunks, [rest] => .more (lineChunks ++ [rest])
  | lineChunks, piece :: next :: pieces =>
    match parseSessionHeaderCandidate parseJson (lineChunks ++ [piece]).flatten with
    | some header => .found header
    | none => scanPieces [] (next :: pieces)

inductive ScanError where
  | scanLimit
  deriving DecidableEq

def finalCandidate (decoder : List UInt8) (lineChunks : List (List Char)) : Option Items :=
  (parseSessionHeaderCandidate parseJson (lineChunks ++ [flushPending decoder]).flatten).join

def scanHeader (bufferSize limit : ℕ) :
    ℕ → List UInt8 → List UInt8 → List (List Char) → ℕ → Except ScanError (Option Items)
  | 0, _, _, _, _ => .error .scanLimit
  | fuel + 1, unread, decoder, lineChunks, scannedBytes =>
    if scannedBytes < limit then
      let data := unread.take (min bufferSize (limit - scannedBytes))
      if data = [] then .ok (finalCandidate parseJson decoder lineChunks)
      else
        let (text, decoder) := drain replaceStep (decoder ++ data)
        match scanPieces parseJson lineChunks (text.splitOn '\n') with
        | .found header => .ok header
        | .more lineChunks =>
          scanHeader bufferSize limit fuel (unread.drop data.length) decoder lineChunks
            (scannedBytes + data.length)
    else if unread = [] then .ok (finalCandidate parseJson decoder lineChunks)
    else .error .scanLimit

def readSessionHeader (bufferSize limit : ℕ) (content : List UInt8) :
    Except ScanError (Option Items) :=
  scanHeader parseJson bufferSize limit (content.length + 1) content [] [] 0

end Reading

section Pieces

theorem reads_flatten {size fuel : ℕ} {bytes : List UInt8} (hsize : 0 < size)
    (hfuel : bytes.length ≤ fuel) : (reads size fuel bytes).flatten = bytes := by
  induction fuel generalizing bytes with
  | zero => exact (length_eq_zero_iff.mp (Nat.le_zero.mp hfuel)).symm
  | succ fuel ih =>
    rw [reads]
    by_cases hnil : bytes.take size = []
    · rw [if_pos hnil]
      rcases take_eq_nil_iff.mp hnil with hzero | hempty
      · omega
      · exact hempty.symm
    · rw [if_neg hnil, flatten_cons, ih, take_append_drop]
      rw [length_drop]
      omega

variable (text front back : List Char)

theorem splitOn_eq : text.splitOn '\n' = terminated text ++ [unterminated text] := by
  have hne := splitOn_ne_nil '\n' text
  rw [terminated, unterminated, getLast?_eq_some_getLast hne, Option.getD_some,
    dropLast_append_getLast]

theorem splitOn_append : (front ++ back).splitOn '\n' =
    terminated front ++ (unterminated front ++ back).splitOn '\n' := by
  obtain ⟨lines, last, hfront, hback⟩ := @Lines.splitOn_append_last _ _ '\n' front
  obtain ⟨hlines, hlast⟩ := append_inj' ((splitOn_eq front).symm.trans hfront) rfl
  rw [hback, hlines, singleton_inj.mp hlast]

theorem terminated_append :
    terminated (front ++ back) = terminated front ++ terminated (unterminated front ++ back) := by
  have h := splitOn_append front back
  rw [splitOn_eq, splitOn_eq (unterminated front ++ back), ← append_assoc] at h
  exact (append_inj' h rfl).1

theorem unterminated_append :
    unterminated (front ++ back) = unterminated (unterminated front ++ back) := by
  have h := splitOn_append front back
  rw [splitOn_eq, splitOn_eq (unterminated front ++ back), ← append_assoc] at h
  exact singleton_inj.mp (append_inj' h rfl).2

theorem newline_notMem_unterminated : '\n' ∉ unterminated text := by
  have hmem : unterminated text ∈ text.splitOn '\n' := by
    rw [splitOn_eq]
    exact mem_append_right _ (mem_singleton_self _)
  exact Lines.not_mem_of_mem_splitOn hmem

theorem newline_notMem_flushPending (bytes : List UInt8) : '\n' ∉ flushPending bytes := by
  have hreplacement : replacement ≠ '\n' := by decide
  unfold flushPending
  split
  · exact not_mem_nil
  · split_ifs <;> simp [hreplacement.symm]
  · simp [hreplacement.symm]

theorem drain_append (front back : List UInt8) :
    drain replaceStep (front ++ back) =
      ((drain replaceStep front).1 ++
        (drain replaceStep ((drain replaceStep front).2 ++ back)).1,
        (drain replaceStep ((drain replaceStep front).2 ++ back)).2) :=
  replaceStep_lawful.drain_append trivial

end Pieces

section Agreement

variable {parseJson : List Char → Option Value}

def entriesOf (parseJson : List Char → Option Value) (text : List Char) : List Items :=
  (text.splitOn '\n').filterMap (parseSessionEntryLine parseJson)

/-- Where the full load stands when some bytes have been read. -/
structure Follows (parseJson : List Char → Option Value) (bytes : List UInt8) (s : Loading) :
    Prop where
  decoder : s.decoder = (drain replaceStep bytes).2
  pending : s.pending = unterminated (drain replaceStep bytes).1
  entries : s.entries = (terminated (drain replaceStep bytes).1).filterMap
    (parseSessionEntryLine parseJson)

variable {bytes decoder : List UInt8} {s : Loading} {bufferSize : ℕ} {lineChunks : List (List Char)}

theorem Follows.loadPiece (h : Follows parseJson bytes s) (data : List UInt8) :
    Follows parseJson (bytes ++ data) (SessionHeaderScan.loadPiece parseJson s data) := by
  constructor
  · rw [drain_append, ← h.decoder]
    rfl
  · rw [drain_append, ← h.decoder, unterminated_append, ← h.pending]
    rfl
  · rw [drain_append, ← h.decoder, terminated_append, ← h.pending, filterMap_append, ← h.entries]
    rfl

theorem follows_reads (pieces : List (List UInt8)) (h : Follows parseJson bytes s) :
    Follows parseJson (bytes ++ pieces.flatten) (pieces.foldl (loadPiece parseJson) s) := by
  induction pieces generalizing bytes s with
  | nil => rwa [flatten_nil, append_nil]
  | cons data pieces ih =>
    rw [flatten_cons, ← append_assoc]
    exact ih (h.loadPiece data)

theorem loadWireEntries_eq (hsize : 0 < bufferSize) (content : List UInt8) :
    loadWireEntriesFromFile parseJson bufferSize content =
      match entriesOf parseJson (decodeReplace content) with
      | [] => []
      | header :: rest => if isHeader header then header :: rest else [] := by
  have hinitial : Follows parseJson [] {} := ⟨rfl, rfl, rfl⟩
  have hread := follows_reads (reads bufferSize content.length content) hinitial
  rw [nil_append, reads_flatten hsize (Nat.le_refl _)] at hread
  rw [loadWireEntriesFromFile]
  generalize (reads bufferSize content.length content).foldl (loadPiece parseJson) {} = s at hread
  have hentries : s.entries ++ (parseSessionEntryLine parseJson
      (s.pending ++ flushPending s.decoder)).toList =
        entriesOf parseJson (decodeReplace content) := by
    have hflush : '\n' ∉ s.pending ++ flushPending s.decoder := by
      rw [mem_append, not_or, hread.pending]
      exact ⟨newline_notMem_unterminated _, newline_notMem_flushPending _⟩
    rw [entriesOf, decodeReplace, splitOn_append, ← hread.pending, ← hread.decoder,
      splitOn_eq_singleton hflush, filterMap_append, ← hread.entries, filterMap_cons]
    cases parseSessionEntryLine parseJson (s.pending ++ flushPending s.decoder) <;> rfl
  simp only [hentries]
  cases entriesOf parseJson (decodeReplace content) <;> rfl

/-- The header is the first entry of the text, if that is a header. -/
def headerIn (parseJson : List Char → Option Value) (text : List Char) : Option Items :=
  ((text.splitOn '\n').findSome? (parseSessionHeaderCandidate parseJson)).join

theorem parseSessionHeaderCandidate_eq (line : List Char) :
    parseSessionHeaderCandidate parseJson line =
      (parseSessionEntryLine parseJson line).map
        fun entry => if isHeader entry then some entry else none := by
  rw [parseSessionHeaderCandidate]
  by_cases hblank : stripped line = []
  · rw [if_pos hblank, parseSessionEntryLine, if_pos hblank]
    rfl
  · rw [if_neg hblank]
    cases parseSessionEntryLine parseJson line <;> rfl

theorem headerIn_eq (text : List Char) :
    headerIn parseJson text =
      (entriesOf parseJson text).head?.bind fun entry =>
        if isHeader entry then some entry else none := by
  have hcandidate : parseSessionHeaderCandidate parseJson =
      Option.map (fun entry => if isHeader entry then some entry else none) ∘
        parseSessionEntryLine parseJson := funext parseSessionHeaderCandidate_eq
  rw [headerIn, hcandidate, ← map_findSome?, entriesOf, head?_filterMap]
  cases (text.splitOn '\n').findSome? (parseSessionEntryLine parseJson) <;> rfl

theorem headerIn_append {front back : List Char} {header : Option Items}
    (h : (terminated front).findSome? (parseSessionHeaderCandidate parseJson) = some header) :
    headerIn parseJson (front ++ back) = header := by
  rw [headerIn, splitOn_append, findSome?_append, h]
  rfl

theorem scanPieces_spec (lineChunks : List (List Char)) (first : List Char)
    (pieces : List (List Char)) :
    match ((lineChunks.flatten ++ first) :: pieces).dropLast.findSome?
        (parseSessionHeaderCandidate parseJson) with
    | some header => scanPieces parseJson lineChunks (first :: pieces) = .found header
    | none => ∃ chunks, scanPieces parseJson lineChunks (first :: pieces) = .more chunks ∧
        some chunks.flatten = ((lineChunks.flatten ++ first) :: pieces).getLast? := by
  induction pieces generalizing lineChunks first with
  | nil =>
    refine ⟨lineChunks ++ [first], rfl, ?_⟩
    rw [flatten_append, flatten_singleton]
    rfl
  | cons next pieces ih =>
    have hjoin : (lineChunks ++ [first]).flatten = lineChunks.flatten ++ first := by
      rw [flatten_append, flatten_singleton]
    rw [dropLast_cons_cons, findSome?_cons, scanPieces, hjoin, getLast?_cons_cons]
    cases parseSessionHeaderCandidate parseJson (lineChunks.flatten ++ first) with
    | some header => rfl
    | none => exact ih [] next

theorem scanPieces_text {lineChunks : List (List Char)} (h : '\n' ∉ lineChunks.flatten)
    (text : List Char) :
    match (terminated (lineChunks.flatten ++ text)).findSome?
        (parseSessionHeaderCandidate parseJson) with
    | some header => scanPieces parseJson lineChunks (text.splitOn '\n') = .found header
    | none => ∃ chunks, scanPieces parseJson lineChunks (text.splitOn '\n') = .more chunks ∧
        chunks.flatten = unterminated (lineChunks.flatten ++ text) := by
  obtain ⟨first, pieces, hpieces⟩ := exists_cons_of_ne_nil (splitOn_ne_nil '\n' text)
  have hlines : (lineChunks.flatten ++ text).splitOn '\n' =
      (lineChunks.flatten ++ first) :: pieces := by
    rw [Lines.splitOn_of_not_mem_append h, hpieces, modifyHead_cons]
  have hspec := @scanPieces_spec parseJson lineChunks first pieces
  rw [terminated, unterminated, hlines, hpieces]
  revert hspec
  cases ((lineChunks.flatten ++ first) :: pieces).dropLast.findSome?
      (parseSessionHeaderCandidate parseJson) with
  | some header => exact id
  | none =>
    rintro ⟨chunks, hmore, hlast⟩
    refine ⟨chunks, hmore, ?_⟩
    rw [← hlast]
    rfl

/-- Where the scan stands when the bytes read so far hold no complete entry. -/
structure Scans (parseJson : List Char → Option Value) (bytes decoder : List UInt8)
    (lineChunks : List (List Char)) : Prop where
  decoder : decoder = (drain replaceStep bytes).2
  pending : lineChunks.flatten = unterminated (drain replaceStep bytes).1
  searched : (terminated (drain replaceStep bytes).1).findSome?
    (parseSessionHeaderCandidate parseJson) = none

theorem Scans.final (h : Scans parseJson bytes decoder lineChunks) :
    finalCandidate parseJson decoder lineChunks = headerIn parseJson (decodeReplace bytes) := by
  have hflush : '\n' ∉ lineChunks.flatten ++ flushPending decoder := by
    rw [mem_append, not_or, h.pending]
    exact ⟨newline_notMem_unterminated _, newline_notMem_flushPending _⟩
  rw [headerIn, decodeReplace, splitOn_append, ← h.pending, ← h.decoder,
    splitOn_eq_singleton hflush, findSome?_append, h.searched, Option.none_or,
    finalCandidate, flatten_append, flatten_singleton, findSome?_singleton]

theorem Scans.piece {bytes decoder : List UInt8} {lineChunks : List (List Char)}
    (h : Scans parseJson bytes decoder lineChunks) (data : List UInt8) :
    match scanPieces parseJson lineChunks
        ((drain replaceStep (decoder ++ data)).1.splitOn '\n') with
    | .found header =>
      ∀ rest, headerIn parseJson (decodeReplace (bytes ++ data ++ rest)) = header
    | .more chunks =>
      Scans parseJson (bytes ++ data)
        (drain replaceStep (decoder ++ data)).2 chunks := by
  have hpending : '\n' ∉ lineChunks.flatten := by
    rw [h.pending]
    exact newline_notMem_unterminated _
  have hdrain := drain_append bytes data
  rw [← h.decoder] at hdrain
  have hsearched : (terminated (drain replaceStep (bytes ++ data)).1).findSome?
      (parseSessionHeaderCandidate parseJson) =
        (terminated (lineChunks.flatten ++
          (drain replaceStep (decoder ++ data)).1)).findSome?
          (parseSessionHeaderCandidate parseJson) := by
    rw [hdrain, terminated_append, findSome?_append, h.searched, Option.none_or, h.pending]
  have htext := @scanPieces_text parseJson _ hpending
    (drain replaceStep (decoder ++ data)).1
  cases hfound : (terminated (lineChunks.flatten ++
      (drain replaceStep (decoder ++ data)).1)).findSome?
      (parseSessionHeaderCandidate parseJson) with
  | some header =>
    rw [hfound] at htext hsearched
    rw [htext]
    intro rest
    rw [decodeReplace, drain_append, append_assoc]
    exact headerIn_append hsearched
  | none =>
    rw [hfound] at htext hsearched
    obtain ⟨chunks, hmore, hchunks⟩ := htext
    rw [hmore]
    refine ⟨?_, ?_, hsearched⟩
    · rw [hdrain]
    · rw [hchunks, h.pending, hdrain]
      exact (unterminated_append _ _).symm

theorem scanHeader_eq {limit fuel scannedBytes : ℕ} {unread : List UInt8} (hsize : 0 < bufferSize)
    (hlimit : scannedBytes + unread.length ≤ limit) (hfuel : unread.length < fuel)
    (h : Scans parseJson bytes decoder lineChunks) :
    scanHeader parseJson bufferSize limit fuel unread decoder lineChunks scannedBytes =
      .ok (headerIn parseJson (decodeReplace (bytes ++ unread))) := by
  induction fuel generalizing bytes unread decoder lineChunks scannedBytes with
  | zero => omega
  | succ fuel ih =>
    rw [scanHeader]
    by_cases hscan : scannedBytes < limit
    · rw [if_pos hscan]
      dsimp only
      set data := unread.take (min bufferSize (limit - scannedBytes)) with hdata
      by_cases hempty : data = []
      · have hunread : unread = [] := by
          rcases take_eq_nil_iff.mp (hdata ▸ hempty) with hzero | hnil
          · omega
          · exact hnil
        rw [if_pos hempty, h.final, hunread, append_nil]
      · have hsplit : data ++ unread.drop data.length = unread :=
          prefix_iff_eq_append.mp ( take_prefix _ unread)
        have hread : 0 < data.length := length_pos_iff.mpr hempty
        have hlength : data.length + (unread.drop data.length).length = unread.length := by
          rw [← length_append, hsplit]
        have hbytes : bytes ++ unread = bytes ++ data ++ unread.drop data.length := by
          rw [append_assoc, hsplit]
        rw [if_neg hempty, hbytes]
        have hpiece := h.piece data
        cases hscanned : scanPieces parseJson lineChunks
            ((drain replaceStep (decoder ++ data)).1.splitOn '\n') with
        | found header =>
          rw [hscanned] at hpiece
          rw [hpiece]
        | more chunks =>
          rw [hscanned] at hpiece
          exact ih (by omega) (by omega) hpiece
    · have hunread : unread = [] := length_eq_zero_iff.mp (by omega)
      rw [if_neg hscan, if_pos hunread, h.final, hunread, append_nil]

/-- Within the limit the scan finds the first entry that the full load gives. -/
theorem header_scan_agrees {bufferSize loadBufferSize limit : ℕ} (content : List UInt8)
    (hsize : 0 < bufferSize) (hload : 0 < loadBufferSize) (hlimit : content.length ≤ limit) :
    ∃ header, readSessionHeader parseJson bufferSize limit content = .ok header ∧
      header = (loadWireEntriesFromFile parseJson loadBufferSize content).head? ∧
      (header = none ↔ loadWireEntriesFromFile parseJson loadBufferSize content = []) := by
  have hinitial : Scans parseJson [] [] [] := ⟨rfl, rfl, rfl⟩
  have hscan : readSessionHeader parseJson bufferSize limit content =
      .ok (headerIn parseJson (decodeReplace content)) :=
    scanHeader_eq hsize (by omega) (by omega) hinitial
  have hhead : headerIn parseJson (decodeReplace content) =
      (loadWireEntriesFromFile parseJson loadBufferSize content).head? := by
    rw [headerIn_eq, loadWireEntries_eq hload]
    cases entriesOf parseJson (decodeReplace content) with
    | nil => rfl
    | cons header rest => cases hheader : isHeader header <;> simp [hheader]
  refine ⟨_, hscan, hhead, ?_⟩
  rw [hhead, head?_eq_none_iff]

end Agreement

/-- A malformed line and a header that no newline ends, read in pieces of four and five bytes. -/
theorem header_scan_agrees_unended :
    let header : Items := [("type", .str "session"), ("id", .str "a")]
    let parseJson (line : List Char) : Option Value :=
      if line = "\x7b\"type\":\"session\",\"id\":\"a\"\x7d".toList then some (.dict header) else none
    let content := "\x7b\n\x7b\"type\":\"session\",\"id\":\"a\"\x7d".toUTF8.toList
    ∃ found, readSessionHeader parseJson 4 64 content = .ok found ∧
      found = (loadWireEntriesFromFile parseJson 5 content).head? ∧
      (found = none ↔ loadWireEntriesFromFile parseJson 5 content = []) :=
  header_scan_agrees _ (by decide) (by decide) (by decide +kernel)

end Pidrei.SessionHeaderScan
