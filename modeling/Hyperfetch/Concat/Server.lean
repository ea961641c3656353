import Hyperfetch.Weft.Parts
import Hyperfetch.Weft.Text
import Hyperfetch.Text
import Hyperfetch.Range

/-!
# The concat server

concat_server.rs: files served over HTTP as one seekable stream. The ranges of a request, the
file a range begins in, and the loops that write it out.
-/

namespace Hyperfetch.Concat

open Weft Weft.Utf8

/-- What is at a path, or what the system says of it. -/
abbrev Disk : Type := String → Except String (List UInt8)

/-- concat_server.rs 105–109. -/
structure ServerState where
  files : List String
  ends : List ℕ
  totalLength : ℕ
deriving DecidableEq

def checkedAdd (a b : ℕ) : Option ℕ := if a + b ≤ u64Max then some (a + b) else none

/-- The cumulative boundaries of the files, from `cumLen`. -/
def boundaries (disk : Disk) : ℕ → List String → Except String (List ℕ × ℕ)
  | cumLen, [] => .ok ([], cumLen)
  | cumLen, f :: files => do
    let content ← (disk f).mapError fun e => s!"cannot stat segment '{f}': {e}"
    let cumLen ← okOr "total length overflow" (checkedAdd cumLen content.length)
    let (ends, total) ← boundaries disk cumLen files
    return (cumLen :: ends, total)

/-- What the listener serves, once it is bound. -/
def start (disk : Disk) (files : List String) : Except String ServerState :=
  if files.isEmpty then .error "cannot start concat server with zero files"
  else do
    let (ends, cumLen) ← boundaries disk 0 files
    return { files, ends, totalLength := cumLen }

/-! ## The request -/

/-- `str::lines`. -/
def linesOf (text : Text) : List Text := (lines '\n' text).map fun line => if line.getLast? = some '\r' then line.dropLast else line

/-- The variables a request's lines set. -/
structure RangeVars where
  rangeStart : ℕ
  rangeEnd : ℕ
  isRange : Bool
deriving DecidableEq

def isRangeLine (line : Text) : Bool := "range:".toList.isPrefixOf (line.map Char.toLower)

/-- One line of the request, 127–141. -/
def readLine (total : ℕ) (v : RangeVars) (line : Text) : RangeVars :=
  if isRangeLine line then
    match splitOnce '=' line with
    | some (_, rVal) =>
      match splitOnce '-' rVal with
      | some (sStr, eStr) =>
        { rangeStart := (parseU64 (trim sStr)).getD v.rangeStart
          rangeEnd := match parseU64 (trim eStr) with
            | some e => if e < total then e else v.rangeEnd
            | none => v.rangeEnd
          isRange := true }
      | none => { v with isRange := true }
    | none => v
  else v

def readRange (total : ℕ) (reqText : Text) : RangeVars :=
  (linesOf reqText).foldl (readLine total) { rangeStart := 0, rangeEnd := total - 1, isRange := false }

/-! ## The response -/

/-- What the status line and the headers say. -/
inductive Head where
  | unsatisfiable (total : ℕ)
  | slice (isRange : Bool) (contentLen rangeStart rangeEnd total : ℕ)
deriving DecidableEq

def Head.text : Head → String
  | .unsatisfiable total =>
    s!"HTTP/1.1 416 Range Not Satisfiable\r\nContent-Range: bytes */{total}\r\nConnection: close\r\n\r\n"
  | .slice isRange contentLen rangeStart rangeEnd total =>
    let statusCode := if isRange then "206 Partial Content" else "200 OK"
    s!"HTTP/1.1 {statusCode}\r\nAccept-Ranges: bytes\r\nContent-Length: {contentLen}\r\nContent-Range: bytes {rangeStart}-{rangeEnd}/{total}\r\nContent-Type: video/MP2T\r\nConnection: close\r\n\r\n"

/-- What is written to the client before the connection closes. -/
structure Response where
  head : Option Head
  body : List UInt8
deriving DecidableEq

/-- How the rest of the system answers. What happens to the stream is asked at its offset, which
no two reads of one request share. -/
structure World where
  takesHead : Bool
  cancelled : ℕ → Bool
  seeks : ℕ → Bool
  /-- How much a read would return, if it is asked for as much; `none` is an error. -/
  readSize : ℕ → Option ℕ
  takes : ℕ → Bool

/-- Nothing fails and nobody hangs up, whatever the sizes of the reads. -/
structure World.Works (w : World) : Prop where
  takesHead : w.takesHead = true
  cancelled : ∀ offset, w.cancelled offset = false
  seeks : ∀ offset, w.seeks offset = true
  reads : ∀ offset, ∃ size, w.readSize offset = some size
  takes : ∀ offset, w.takes offset = true

/-- A subtraction of `u64`s, which must not underflow. -/
def checkedSub (a b : ℕ) : Option ℕ := if b ≤ a then some (a - b) else none

/-- Where the stream stands. -/
structure Cursor where
  currentOffset : ℕ
  bytesRemaining : ℕ
  body : List UInt8

/-- How a file's loop ends: with the next file, or with the response. -/
inductive Flow where
  | next (c : Cursor)
  | stop (body : List UInt8)

/-- The reads of one file, 194–212: `pos` is where the file stands. A read gives a byte at least,
unless the file is at its end. No fuel left counts as no result. -/
def readLoop (w : World) (content : List UInt8) (bytesFromThisFile : ℕ) : ℕ → ℕ → ℕ → Cursor → Option Flow
  | 0, _, _, _ => none
  | fuel + 1, pos, readForFile, c =>
    if bytesFromThisFile ≤ readForFile then some (.next c)
    else if w.cancelled c.currentOffset then some (.stop c.body)
    else do
      let left ← checkedSub bytesFromThisFile readForFile
      let toRead := min left (64 * 1024)
      match w.readSize c.currentOffset with
      | none => some (.stop c.body)
      | some size =>
        let got := (content.drop pos).take (max 1 (min size toRead))
        if got.isEmpty then some (.next c)
        else if w.takes c.currentOffset then do
          let bytesRemaining ← checkedSub c.bytesRemaining got.length
          readLoop w content bytesFromThisFile fuel (pos + got.length) (readForFile + got.length)
            { currentOffset := c.currentOffset + got.length, bytesRemaining, body := c.body ++ got }
        else some (.stop c.body)

/-- The files from the one that begins at `fileStart`, 172–218. -/
def serveFiles (disk : Disk) (w : World) : ℕ → List (String × ℕ) → Cursor → Option (List UInt8)
  | _, [], c => some c.body
  | fileStart, (filePath, fileEnd) :: rest, c =>
    if c.bytesRemaining = 0 then some c.body
    else if w.cancelled c.currentOffset then some c.body
    else do
      let fileLen ← checkedSub fileEnd fileStart
      let offsetInFile ← checkedSub c.currentOffset fileStart
      let inFile ← checkedSub fileLen offsetInFile
      let bytesFromThisFile := min inFile c.bytesRemaining
      match disk filePath with
      | .error _ => some c.body
      | .ok content =>
        if w.seeks c.currentOffset then
          match ← readLoop w content bytesFromThisFile (bytesFromThisFile + 1) offsetInFile 0 c with
          | .stop body => some body
          | .next c => serveFiles disk w fileEnd rest c
        else serveFiles disk w fileEnd rest c

/-- `handle_client`, with what its one read of the request returned. -/
def handleClient (b : BinarySearch) (disk : Disk) (w : World) (state : ServerState) (header : List UInt8) : Option Response :=
  if header.isEmpty then some ⟨none, []⟩
  else
    let reqText := lossy header
    let firstLine := (linesOf reqText).head?.getD []
    let isHead := "HEAD".toList.isPrefixOf firstLine
    let v := readRange state.totalLength reqText
    if v.rangeStart > v.rangeEnd ∨ v.rangeStart ≥ state.totalLength then
      some ⟨if w.takesHead then some (.unsatisfiable state.totalLength) else none, []⟩
    else do
      let span ← checkedSub v.rangeEnd v.rangeStart
      let contentLen := span + 1
      let head := Head.slice v.isRange contentLen v.rangeStart v.rangeEnd state.totalLength
      if !w.takesHead then some ⟨none, []⟩
      else if isHead then some ⟨some head, []⟩
      else do
        let fileIdx := b.after state.ends v.rangeStart
        let fileStart := (0 :: state.ends)[fileIdx]?.getD 0
        let body ← serveFiles disk w fileStart ((state.files.zip state.ends).drop fileIdx) ⟨v.rangeStart, contentLen, []⟩
        return ⟨some head, body⟩

/-! ## The boundaries -/

/-- The files are there with these contents. -/
def Holds (disk : Disk) (files : List String) (contents : List (List UInt8)) : Prop :=
  List.Forall₂ (fun f content => disk f = .ok content) files contents

theorem boundaries_eq_ok {disk : Disk} {cumLen total : ℕ} {files : List String} {ends : List ℕ}
    (h : boundaries disk cumLen files = .ok (ends, total)) (hcum : cumLen ≤ u64Max) :
    ∃ contents, Holds disk files contents ∧ ends = endsFrom cumLen contents ∧ total = cumLen + contents.flatten.length ∧
      total ≤ u64Max := by
  induction files generalizing cumLen ends with
  | nil =>
    cases h
    exact ⟨[], List.Forall₂.nil, rfl, rfl, hcum⟩
  | cons f files ih =>
    rw [boundaries, bind_eq_ok] at h
    obtain ⟨content, hcontent, h⟩ := h
    obtain ⟨next, hnext, h⟩ := bind_eq_ok.mp h
    obtain ⟨⟨rest, total'⟩, hrest, h⟩ := bind_eq_ok.mp h
    cases h
    have hadd := okOr_eq_ok.mp hnext
    unfold checkedAdd at hadd
    split at hadd
    · rename_i hfits
      cases hadd
      obtain ⟨contents, hholds, rfl, rfl, hle⟩ := ih hrest hfits
      have hdisk : disk f = .ok content := by
        cases hf : disk f with
        | error e =>
          rw [hf] at hcontent
          cases hcontent
        | ok c =>
          rw [hf] at hcontent
          cases hcontent
          rfl
      refine ⟨content :: contents, List.Forall₂.cons hdisk hholds, rfl, ?_, hle⟩
      simp [Nat.add_assoc]
    · cases hadd

/-- A server that starts has measured every file. -/
theorem start_eq_ok {disk : Disk} {files : List String} {state : ServerState} (h : start disk files = .ok state) :
    ∃ contents, Holds disk files contents ∧ state = ⟨files, endsFrom 0 contents, contents.flatten.length⟩ ∧
      contents.flatten.length ≤ u64Max := by
  unfold start at h
  split at h
  · cases h
  · obtain ⟨⟨ends, total⟩, hends, h⟩ := bind_eq_ok.mp h
    cases h
    obtain ⟨contents, hholds, rfl, rfl, hle⟩ := boundaries_eq_ok hends (Nat.zero_le _)
    rw [Nat.zero_add] at hle ⊢
    exact ⟨contents, hholds, rfl, hle⟩

/-! ## The bytes -/

theorem checkedSub_of_le {a b : ℕ} (h : b ≤ a) : checkedSub a b = some (a - b) := if_pos h

section

variable {disk : Disk} {w : World} (hworks : w.Works)

include hworks

/-- A file's loop writes what it owes of the file, however small the reads are. -/
theorem readLoop_eq {content : List UInt8} {bytesFrom fuel pos readFor : ℕ} {c : Cursor} (hfuel : bytesFrom - readFor < fuel)
    (hread : readFor ≤ bytesFrom) (hpos : pos + (bytesFrom - readFor) ≤ content.length)
    (hremaining : bytesFrom - readFor ≤ c.bytesRemaining) :
    readLoop w content bytesFrom fuel pos readFor c =
      some (.next ⟨c.currentOffset + (bytesFrom - readFor), c.bytesRemaining - (bytesFrom - readFor),
        c.body ++ (content.drop pos).take (bytesFrom - readFor)⟩) := by
  induction fuel generalizing pos readFor c with
  | zero => exact absurd hfuel (Nat.not_lt_zero _)
  | succ fuel ih =>
    by_cases hdone : bytesFrom ≤ readFor
    · have hnone : bytesFrom - readFor = 0 := Nat.sub_eq_zero_of_le hdone
      simp [readLoop, hdone, hnone]
    · obtain ⟨size, hsize⟩ := hworks.reads c.currentOffset
      -- the read gives `n` bytes, at least one and none too many
      obtain ⟨n, hn⟩ : ∃ n, n = max 1 (min size (min (bytesFrom - readFor) (64 * 1024))) := ⟨_, rfl⟩
      have hn1 : 1 ≤ n := hn ▸ le_max_left _ _
      have hnle : n ≤ bytesFrom - readFor := by omega
      have hgot : ((content.drop pos).take n).length = n := by
        rw [List.length_take, List.length_drop]
        omega
      have hne : ((content.drop pos).take n).isEmpty = false := by
        rw [List.isEmpty_eq_false_iff, ← List.length_pos_iff, hgot]
        exact hn1
      have hnext := @ih (pos + n) (readFor + n)
        ⟨c.currentOffset + n, c.bytesRemaining - n, c.body ++ (content.drop pos).take n⟩
        (by omega) (by omega) (by omega) (show bytesFrom - (readFor + n) ≤ c.bytesRemaining - n by omega)
      rw [readLoop, if_neg hdone, hworks.cancelled, if_neg Bool.false_ne_true, checkedSub_of_le (by omega)]
      simp only [Option.bind_eq_bind, Option.bind_some, hsize, ← hn, hne, Bool.false_eq_true, if_false, hworks.takes, if_true,
        hgot, checkedSub_of_le (hnle.trans hremaining)]
      rw [hnext]
      have hsplit : bytesFrom - readFor = n + (bytesFrom - (readFor + n)) := by omega
      conv_rhs => rw [hsplit, List.take_add, List.drop_drop]
      simp only [Option.some.injEq, Flow.next.injEq, Cursor.mk.injEq, List.append_assoc, and_true]
      omega

/-- The files from any of them on: what the stream owes, out of their concatenation. -/
theorem serveFiles_eq {files : List String} {contents : List (List UInt8)} (hholds : Holds disk files contents) {fileStart : ℕ}
    {c : Cursor} (hbegin : c.bytesRemaining = 0 ∨ fileStart ≤ c.currentOffset)
    (hfirst : c.bytesRemaining = 0 ∨ ∀ content, contents.head? = some content → c.currentOffset ≤ fileStart + content.length)
    (hend : c.bytesRemaining = 0 ∨ c.currentOffset + c.bytesRemaining ≤ fileStart + contents.flatten.length) :
    serveFiles disk w fileStart (files.zip (endsFrom fileStart contents)) c =
      some (c.body ++ (contents.flatten.drop (c.currentOffset - fileStart)).take c.bytesRemaining) := by
  induction hholds generalizing fileStart c with
  | nil => simp [serveFiles]
  | @cons f content files contents hf _ ih =>
    by_cases hnone : c.bytesRemaining = 0
    · simp [serveFiles, endsFrom, hnone]
    · replace hbegin := hbegin.resolve_left hnone
      replace hfirst := hfirst.resolve_left hnone content rfl
      replace hend := hend.resolve_left hnone
      rw [List.flatten_cons, List.length_append] at hend
      obtain ⟨o, ho⟩ : ∃ o, c.currentOffset = fileStart + o := ⟨_, (Nat.add_sub_cancel' hbegin).symm⟩
      obtain ⟨m, hm⟩ : ∃ m, m = min (content.length - o) c.bytesRemaining := ⟨_, rfl⟩
      have hloop : readLoop w content m (m + 1) o 0 c =
          some (.next ⟨c.currentOffset + m, c.bytesRemaining - m, c.body ++ (content.drop o).take m⟩) :=
        readLoop_eq hworks (by omega) (by omega) (by omega) (by omega)
      have hlen : fileStart + content.length - fileStart = content.length := by omega
      have hoff : c.currentOffset - fileStart = o := by omega
      rw [endsFrom, List.zip_cons_cons, serveFiles, if_neg hnone, hworks.cancelled, if_neg Bool.false_ne_true,
        checkedSub_of_le (by omega), checkedSub_of_le hbegin]
      simp only [Option.bind_eq_bind, Option.bind_some, hlen, hoff, checkedSub_of_le (by omega : o ≤ content.length), ← hm, hf,
        hworks.seeks, if_true, hloop]
      rw [ih (c := ⟨c.currentOffset + m, c.bytesRemaining - m, c.body ++ (content.drop o).take m⟩)]
      · -- what this file has of it, and what the files after it have
        rw [List.flatten_cons, List.drop_append, Nat.sub_eq_zero_of_le (by omega : o ≤ content.length), List.drop_zero,
          List.take_append, List.length_drop, List.append_assoc]
        simp only
        rcases Nat.le_total c.bytesRemaining (content.length - o) with hle | hle
        · rw [Nat.sub_eq_zero_of_le hle, show m = c.bytesRemaining by omega, Nat.sub_self, List.take_zero, List.take_zero]
        · have hall : (content.drop o).take c.bytesRemaining = content.drop o :=
            List.take_of_length_le (by rw [List.length_drop]; exact hle)
          have hrest : (content.drop o).take m = content.drop o := List.take_of_length_le (by rw [List.length_drop]; omega)
          rw [hall, hrest, show c.currentOffset + m - (fileStart + content.length) = 0 by omega, List.drop_zero,
            show c.bytesRemaining - m = c.bytesRemaining - (content.length - o) by omega]
      · simp only
        omega
      · simp only
        rcases Nat.le_total c.bytesRemaining (content.length - o) with hle | hle
        · exact Or.inl (by omega)
        · exact Or.inr fun content' _ => by omega
      · simp only
        omega

end

end Hyperfetch.Concat
