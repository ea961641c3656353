import Hyperfetch.Weft.TSys
import Hyperfetch.Weft.Text

/-!
# The download archive (`media.rs`)

`record_archive` and `read_archive` over the archive's bytes: calls of any
number of processes one after another under the lock, a crash cutting an
append after any number of its bytes. Whatever a call adds are lines of their
own after those that were there (`lines_added`), so nothing that was read is
ever read otherwise.

A line break's `'\r'` is white space, which `trim` drops with it.
-/

namespace Hyperfetch

namespace Media

open Weft Weft.Utf8

abbrev Text := List Char

/-- A line of the archive as its callers make it: an extractor and an id. -/
structure ArchiveId where
  text : Text
  nonempty : text ≠ []
  single : '\n' ∉ text
  trimmed : Trimmed text

/-- The lines of a file as both functions see them. -/
def archiveLines (file : List UInt8) : List Text := (lines '\n' (lossy file)).map trim

def readArchive (file : List UInt8) : List Text := (archiveLines file).filter fun line => !line.isEmpty

/-- Those of `ids` that are not known, each once. -/
def newLines (known : List Text) : List Text → List Text
  | [] => []
  | id :: ids => if id ∈ known then newLines known ids else id :: newLines (id :: known) ids

/-- What a call that read `file` appends. -/
def recordArchive (file : List UInt8) (ids : List Text) : List UInt8 :=
  let known := lossy file
  let added := (newLines (archiveLines file) ids).flatMap (· ++ ['\n'])
  if added.isEmpty then []
  else if !known.isEmpty && known.getLast? != some '\n' then encode ('\n' :: added)
  else encode added

/-! ## Calls under the lock -/

/-- The call that holds the lock, and the file it read. -/
structure Holder where
  ids : List ArchiveId
  read : Option (List UInt8)

structure State where
  file : List UInt8
  holder : Option Holder
  /-- The ids of every call so far. -/
  recorded : List Text
  /-- The ids of the calls that returned Ok, and of those the ones they wrote. -/
  ok : List Text
  written : List Text

inductive Event
  | lock (ids : List ArchiveId)
  | read
  | append
  /-- A crash after `kept` bytes of the append. -/
  | cut (kept : Nat)
  /-- The call fails before it appends anything. -/
  | fails

def texts (ids : List ArchiveId) : List Text := ids.map ArchiveId.text

def State.start : State := ⟨[], none, [], [], []⟩

def State.step (s : State) : Event → Option State
  | .lock ids =>
    match s.holder with
    | none => some { s with holder := some ⟨ids, none⟩, recorded := s.recorded ++ texts ids }
    | some _ => none
  | .read =>
    match s.holder with
    | some ⟨ids, none⟩ => some { s with holder := some ⟨ids, some s.file⟩ }
    | _ => none
  | .append =>
    match s.holder with
    | some ⟨ids, some known⟩ =>
      some { s with
        file := s.file ++ recordArchive known (texts ids), holder := none, ok := s.ok ++ texts ids,
        written := s.written ++ newLines (archiveLines known) (texts ids) }
    | _ => none
  | .cut kept =>
    match s.holder with
    | some ⟨ids, some known⟩ =>
      some { s with file := s.file ++ (recordArchive known (texts ids)).take kept, holder := none }
    | _ => none
  | .fails =>
    match s.holder with
    | some _ => some { s with holder := none }
    | none => none

/-- The calls of all processes, with the steps `allowed`. -/
def archive (allowed : State → Event → Prop) : TSys State where
  init s := s = .start
  step s s' := ∃ e, allowed s e ∧ s.step e = some s'

/-- What a crash leaves of a line is nothing, or an id some call recorded. -/
def Harmless (s : State) : Event → Prop
  | .cut kept =>
    ∀ ids known, s.holder = some ⟨ids, some known⟩ → ∀ line,
      (lines lineFeed (s.file ++ (recordArchive known (texts ids)).take kept)).getLast? = some line →
        trim (lossy line) = [] ∨ trim (lossy line) ∈ s.recorded
  | _ => True

/-! ## What a call adds -/

theorem archiveLines_eq (file : List UInt8) :
    archiveLines file = (lines lineFeed file).map fun line => trim (lossy line) := by
  unfold archiveLines
  rw [lines_lossy, List.map_map]
  rfl

theorem mem_readArchive {file : List UInt8} {line : Text} :
    line ∈ readArchive file ↔ line ∈ archiveLines file ∧ line ≠ [] := by
  unfold readArchive
  rw [List.mem_filter, Bool.not_eq_true', List.isEmpty_eq_false_iff]

theorem ArchiveId.line (id : ArchiveId) : trim (lossy (encode id.text)) = id.text := by
  have hlossy := lossy_encode id.text []
  rw [List.append_nil, lossy_nil, List.append_nil] at hlossy
  rw [hlossy, trim_of_trimmed id.trimmed]

theorem newLines_cons (known ids : List Text) (id : Text) :
    newLines known (id :: ids) = if id ∈ known then newLines known ids else id :: newLines (id :: known) ids := rfl

theorem newLines_subset (known ids : List Text) : newLines known ids ⊆ ids := by
  induction ids generalizing known with
  | nil => exact List.Subset.refl _
  | cons id ids ih =>
    rw [newLines_cons]
    split
    · exact List.subset_cons_of_subset _ (ih known)
    · exact List.cons_subset_cons _ (ih _)

/-- A call writes only what is not there, and that once. -/
theorem newLines_fresh (known ids : List Text) :
    (newLines known ids).Nodup ∧ ∀ id ∈ newLines known ids, id ∉ known := by
  induction ids generalizing known with
  | nil => exact ⟨List.nodup_nil, fun id hid => (by cases hid)⟩
  | cons id ids ih =>
    rw [newLines_cons]
    split
    case isTrue => exact ih known
    case isFalse hnew =>
      obtain ⟨hnodup, hfresh⟩ := ih (id :: known)
      refine ⟨List.nodup_cons.mpr ⟨fun hid => hfresh id hid List.mem_cons_self, hnodup⟩, ?_⟩
      intro other hother
      rcases List.mem_cons.mp hother with rfl | hlater
      · exact hnew
      · exact fun hknown => hfresh other hlater (List.mem_cons_of_mem _ hknown)

/-- Every id of a call was there or is written. -/
theorem mem_newLines_or (known ids : List Text) {id : Text} (hid : id ∈ ids) :
    id ∈ known ∨ id ∈ newLines known ids := by
  induction ids generalizing known with
  | nil => cases hid
  | cons first ids ih =>
    rw [newLines_cons]
    rcases List.mem_cons.mp hid with rfl | hlater
    · split
      case isTrue hknown => exact .inl hknown
      case isFalse => exact .inr List.mem_cons_self
    · split
      case isTrue => exact ih known hlater
      case isFalse =>
        rcases ih (first :: known) hlater with hknown | hnew
        · rcases List.mem_cons.mp hknown with rfl | hknown
          · exact .inr List.mem_cons_self
          · exact .inl hknown
        · exact .inr (List.mem_cons_of_mem _ hnew)

/-- The encoded lines a call adds. -/
def body (file : List UInt8) (ids : List Text) : List (List UInt8) := (newLines (archiveLines file) ids).map encode

theorem encode_lines (added : List Text) :
    encode (added.flatMap (· ++ ['\n'])) = (added.map encode).flatMap (· ++ [lineFeed]) := by
  induction added with
  | nil => rfl
  | cons line added ih =>
    rw [List.flatMap_cons, encode_append, ih, encode_append]
    rfl

theorem body_single {file : List UInt8} {ids : List ArchiveId} {line : List UInt8} (h : line ∈ body file (texts ids)) :
    lineFeed ∉ line ∧ ∃ id ∈ ids, line = encode id.text := by
  obtain ⟨text, htext, rfl⟩ := List.mem_map.mp h
  obtain ⟨id, hid, rfl⟩ := List.mem_map.mp (newLines_subset _ _ htext)
  exact ⟨lineFeed_not_mem_encode id.single, id, hid, rfl⟩

/-- A call appends its lines, after closing a line that was cut. -/
theorem recordArchive_eq (file : List UInt8) (ids : List Text) :
    recordArchive file ids = [] ∧ body file ids = [] ∨
      Closed lineFeed file ∧ recordArchive file ids = (body file ids).flatMap (· ++ [lineFeed]) ∨
      ¬ Closed lineFeed file ∧ recordArchive file ids = lineFeed :: (body file ids).flatMap (· ++ [lineFeed]) := by
  unfold recordArchive body
  rw [← encode_lines]
  cases hnew : newLines (archiveLines file) ids with
  | nil => exact .inl ⟨rfl, rfl⟩
  | cons line added =>
    refine .inr ?_
    have hne : ((line :: added).flatMap (· ++ ['\n'])).isEmpty = false := by
      rw [List.isEmpty_eq_false_iff, List.flatMap_cons]
      simp
    have hclosed : (!(lossy file).isEmpty && (lossy file).getLast? != some '\n') = true ↔ ¬ Closed lineFeed file := by
      rw [← closed_lossy, Closed, not_or, Bool.and_eq_true, Bool.not_eq_true', List.isEmpty_eq_false_iff, bne_iff_ne]
    dsimp only
    rw [hne]
    by_cases h : Closed lineFeed file
    · rw [if_neg Bool.false_ne_true, if_neg (fun heq => hclosed.mp heq h)]
      exact .inl ⟨h, rfl⟩
    · rw [if_neg Bool.false_ne_true, if_pos (hclosed.mpr h)]
      exact .inr ⟨h, rfl⟩

/-- However much of an append gets into the file, the lines before it stay,
and each new one is a line of the call or, the last one, how one starts. -/
theorem lines_added (file : List UInt8) (ids : List ArchiveId) (kept : Nat) :
    ∃ new, lines lineFeed (file ++ (recordArchive file (texts ids)).take kept) = lines lineFeed file ++ new ∧
      ∀ line ∈ new, ∃ id ∈ ids, line <+: encode id.text ∧ (line = encode id.text ∨ new.getLast? = some line) := by
  have hbody : ∀ line ∈ body file (texts ids), lineFeed ∉ line := fun line hline => (body_single hline).1
  have hcut : ∀ kept, ∀ line ∈ lines lineFeed (((body file (texts ids)).flatMap (· ++ [lineFeed])).take kept),
      ∃ id ∈ ids, line <+: encode id.text ∧ (line = encode id.text ∨
        (lines lineFeed (((body file (texts ids)).flatMap (· ++ [lineFeed])).take kept)).getLast? = some line) := by
    intro kept line hline
    obtain ⟨whole, hwhole, hstarts, hlast⟩ := mem_lines_cut hbody kept hline
    obtain ⟨_, id, hid, rfl⟩ := body_single hwhole
    exact ⟨id, hid, hstarts, hlast⟩
  rcases recordArchive_eq file (texts ids) with ⟨hnone, _⟩ | ⟨hclosed, heq⟩ | ⟨hopen, heq⟩
  · refine ⟨[], ?_, fun line hline => (by cases hline)⟩
    rw [hnone, List.take_nil, List.append_nil, List.append_nil]
  · rw [heq, lines_append hclosed]
    exact ⟨_, rfl, hcut kept⟩
  · rw [heq]
    cases kept with
    | zero =>
      refine ⟨[], ?_, fun line hline => (by cases hline)⟩
      rw [List.take_zero, List.append_nil, List.append_nil]
    | succ kept =>
      rw [List.take_succ_cons, lines_close hopen]
      exact ⟨_, rfl, hcut kept⟩

theorem lines_recorded (file : List UInt8) (ids : List ArchiveId) :
    lines lineFeed (file ++ recordArchive file (texts ids)) = lines lineFeed file ++ body file (texts ids) := by
  have hbody : ∀ line ∈ body file (texts ids), lineFeed ∉ line := fun line hline => (body_single hline).1
  rcases recordArchive_eq file (texts ids) with ⟨hnone, hbodyNil⟩ | ⟨hclosed, heq⟩ | ⟨hopen, heq⟩
  · rw [hnone, hbodyNil, List.append_nil, List.append_nil]
  · rw [heq, lines_append hclosed, lines_flatMap hbody]
  · rw [heq, lines_close hopen, lines_flatMap hbody]

/-! ## Every run -/

/-- What no crash takes away. -/
structure Inv (s : State) : Prop where
  reader : ∀ ids known, s.holder = some ⟨ids, some known⟩ → known = s.file
  holder : ∀ h, s.holder = some h → texts h.ids ⊆ s.recorded
  ok : ∀ id ∈ s.ok, id ∈ readArchive s.file
  nodup : s.written.Nodup
  written : ∀ id ∈ s.written, id ∈ archiveLines s.file
  apart : ∀ line ∈ lines lineFeed s.file, ∃ id ∈ s.recorded, line <+: encode id

theorem archiveLines_append {file file' : List UInt8} {new : List (List UInt8)}
    (h : lines lineFeed file' = lines lineFeed file ++ new) :
    archiveLines file' = archiveLines file ++ new.map fun line => trim (lossy line) := by
  rw [archiveLines_eq, archiveLines_eq, h, List.map_append]

theorem readArchive_append {file file' : List UInt8} {new : List (List UInt8)}
    (h : lines lineFeed file' = lines lineFeed file ++ new) {id : Text} (hid : id ∈ readArchive file) :
    id ∈ readArchive file' := by
  rw [mem_readArchive] at hid ⊢
  rw [archiveLines_append h]
  exact ⟨List.mem_append_left _ hid.1, hid.2⟩

/-- What a call was asked to add is read afterwards. -/
theorem texts_recorded (file : List UInt8) {ids : List ArchiveId} {text : Text} (htext : text ∈ texts ids) :
    text ∈ readArchive (file ++ recordArchive file (texts ids)) := by
  obtain ⟨id, _, rfl⟩ := List.mem_map.mp htext
  rw [mem_readArchive, archiveLines_append (lines_recorded file ids)]
  refine ⟨?_, id.nonempty⟩
  rcases mem_newLines_or (archiveLines file) (texts ids) htext with hknown | hnew
  · exact List.mem_append_left _ hknown
  · refine List.mem_append_right _ (List.mem_map.mpr ⟨encode id.text, List.mem_map_of_mem hnew, id.line⟩)

theorem written_recorded (file : List UInt8) {ids : List ArchiveId} {text : Text}
    (htext : text ∈ newLines (archiveLines file) (texts ids)) :
    text ∈ archiveLines (file ++ recordArchive file (texts ids)) :=
  (mem_readArchive.mp (texts_recorded file (newLines_subset _ _ htext))).1

variable {s s' : State}

/-- The part of a step that grows the file by lines of the call. -/
theorem Inv.apart_append (h : Inv s) {ids : List ArchiveId} {known : List UInt8}
    (hholder : s.holder = some ⟨ids, some known⟩) (kept : Nat) :
    ∀ line ∈ lines lineFeed (s.file ++ (recordArchive known (texts ids)).take kept),
      ∃ id ∈ s.recorded, line <+: encode id := by
  obtain rfl := h.reader ids known hholder
  obtain ⟨new, hnew, hcut⟩ := lines_added s.file ids kept
  rw [hnew]
  intro line hline
  rcases List.mem_append.mp hline with hold | hadded
  · exact h.apart line hold
  · obtain ⟨id, hid, hstarts, _⟩ := hcut line hadded
    exact ⟨id.text, h.holder _ hholder (List.mem_map_of_mem hid), hstarts⟩

theorem inv_append (h : Inv s) {ids : List ArchiveId} {known : List UInt8}
    (hholder : s.holder = some ⟨ids, some known⟩) :
    Inv { s with
      file := s.file ++ recordArchive known (texts ids), holder := none, ok := s.ok ++ texts ids,
      written := s.written ++ newLines (archiveLines known) (texts ids) } := by
  have happart := h.apart_append hholder (recordArchive known (texts ids)).length
  rw [List.take_length] at happart
  obtain rfl := h.reader ids known hholder
  have hlines := lines_recorded s.file ids
  refine ⟨fun _ _ hnone => (by cases hnone), fun _ hnone => (by cases hnone), ?_, ?_, ?_, happart⟩
  · intro id hid
    rcases List.mem_append.mp hid with hold | hnew
    · exact readArchive_append hlines (h.ok id hold)
    · exact texts_recorded s.file hnew
  · -- what is written is not in the file, so no call before wrote it
    obtain ⟨hnodup, hfresh⟩ := newLines_fresh (archiveLines s.file) (texts ids)
    rw [List.nodup_append]
    refine ⟨h.nodup, hnodup, fun id hold id' hnew heq => ?_⟩
    exact hfresh id' hnew (heq ▸ h.written id hold)
  · intro id hid
    rcases List.mem_append.mp hid with hold | hnew
    · rw [archiveLines_append hlines]
      exact List.mem_append_left _ (h.written id hold)
    · exact written_recorded s.file hnew

theorem inv_cut (h : Inv s) {ids : List ArchiveId} {known : List UInt8}
    (hholder : s.holder = some ⟨ids, some known⟩) (kept : Nat) :
    Inv { s with file := s.file ++ (recordArchive known (texts ids)).take kept, holder := none } := by
  have happart := h.apart_append hholder kept
  obtain rfl := h.reader ids known hholder
  obtain ⟨new, hnew, _⟩ := lines_added s.file ids kept
  refine ⟨fun _ _ hnone => (by cases hnone), fun _ hnone => (by cases hnone), ?_, h.nodup, ?_, happart⟩
  · exact fun id hid => readArchive_append hnew (h.ok id hid)
  · intro id hid
    rw [archiveLines_append hnew]
    exact List.mem_append_left _ (h.written id hid)

theorem inv_step (h : Inv s) {e : Event} (hstep : s.step e = some s') : Inv s' := by
  cases e with
  | lock ids =>
    rw [State.step] at hstep
    split at hstep
    case h_1 =>
      cases hstep
      refine ⟨fun _ _ heq => (by cases heq), fun _ heq => ?_, h.ok, h.nodup, h.written, fun line hline => ?_⟩
      · cases heq
        exact List.subset_append_right _ _
      · obtain ⟨id, hid, hstarts⟩ := h.apart line hline
        exact ⟨id, List.mem_append_left _ hid, hstarts⟩
    case h_2 => cases hstep
  | read =>
    rw [State.step] at hstep
    split at hstep
    case h_1 ids hholder =>
      cases hstep
      refine ⟨fun _ _ heq => ?_, fun _ heq => ?_, h.ok, h.nodup, h.written, h.apart⟩
      · cases heq
        rfl
      · cases heq
        exact h.holder ⟨ids, none⟩ hholder
    case h_2 => cases hstep
  | append =>
    rw [State.step] at hstep
    split at hstep
    case h_1 hholder =>
      cases hstep
      exact inv_append h hholder
    case h_2 => cases hstep
  | cut kept =>
    rw [State.step] at hstep
    split at hstep
    case h_1 hholder =>
      cases hstep
      exact inv_cut h hholder kept
    case h_2 => cases hstep
  | fails =>
    rw [State.step] at hstep
    split at hstep
    case h_1 =>
      cases hstep
      exact ⟨fun _ _ heq => (by cases heq), fun _ heq => (by cases heq), h.ok, h.nodup, h.written, h.apart⟩
    case h_2 => cases hstep

theorem inv_reachable (allowed : State → Event → Prop) : (archive allowed).Invariant Inv :=
  TSys.Inductive.invariant
    { init := by
        rintro s rfl
        exact ⟨fun _ _ heq => (by cases heq), fun _ heq => (by cases heq), fun _ hid => (by cases hid), List.nodup_nil,
          fun _ hid => (by cases hid), fun _ hline => (by cases hline)⟩
      step := fun _ _ h ⟨_, _, hstep⟩ => inv_step h hstep }

/-! ## No line is invented while cuts are harmless -/

def Honest (s : State) : Prop := ∀ line ∈ archiveLines s.file, line = [] ∨ line ∈ s.recorded

theorem honest_append (hinv : Inv s) (h : Honest s) {ids : List ArchiveId} {known : List UInt8}
    (hholder : s.holder = some ⟨ids, some known⟩) {kept : Nat}
    (hlast : ∀ line, (lines lineFeed (s.file ++ (recordArchive known (texts ids)).take kept)).getLast? = some line →
      trim (lossy line) = [] ∨ trim (lossy line) ∈ s.recorded) :
    ∀ line ∈ archiveLines (s.file ++ (recordArchive known (texts ids)).take kept), line = [] ∨ line ∈ s.recorded := by
  obtain rfl := hinv.reader ids known hholder
  obtain ⟨new, hnew, hcut⟩ := lines_added s.file ids kept
  rw [hnew] at hlast
  rw [archiveLines_append hnew]
  intro line hline
  rcases List.mem_append.mp hline with hold | hadded
  · exact h line hold
  obtain ⟨bytes, hbytes, rfl⟩ := List.mem_map.mp hadded
  obtain ⟨id, hid, _, rfl | hend⟩ := hcut bytes hbytes
  · rw [id.line]
    exact .inr (hinv.holder _ hholder (List.mem_map_of_mem hid))
  · refine hlast bytes ?_
    rw [List.getLast?_append_of_ne_nil _ (List.ne_nil_of_mem hbytes)]
    exact hend

/-- A whole append leaves a whole line at the end. -/
theorem harmless_append (hinv : Inv s) (h : Honest s) {ids : List ArchiveId} {known : List UInt8}
    (hholder : s.holder = some ⟨ids, some known⟩) :
    ∀ line ∈ archiveLines (s.file ++ recordArchive known (texts ids)), line = [] ∨ line ∈ s.recorded := by
  obtain rfl := hinv.reader ids known hholder
  rw [archiveLines_append (lines_recorded s.file ids)]
  intro line hline
  rcases List.mem_append.mp hline with hold | hadded
  · exact h line hold
  obtain ⟨bytes, hbytes, rfl⟩ := List.mem_map.mp hadded
  obtain ⟨_, id, hid, rfl⟩ := body_single hbytes
  rw [id.line]
  exact .inr (hinv.holder _ hholder (List.mem_map_of_mem hid))

theorem honest_step (hinv : Inv s) (h : Honest s) {e : Event} (hharmless : Harmless s e)
    (hstep : s.step e = some s') : Honest s' := by
  cases e with
  | lock ids =>
    rw [State.step] at hstep
    split at hstep
    case h_1 =>
      cases hstep
      exact fun line hline => (h line hline).imp id (List.mem_append_left _)
    case h_2 => cases hstep
  | read =>
    rw [State.step] at hstep
    split at hstep
    case h_1 =>
      cases hstep
      exact h
    case h_2 => cases hstep
  | append =>
    rw [State.step] at hstep
    split at hstep
    case h_1 hholder =>
      cases hstep
      exact harmless_append hinv h hholder
    case h_2 => cases hstep
  | cut kept =>
    rw [State.step] at hstep
    split at hstep
    case h_1 ids known hholder =>
      cases hstep
      exact honest_append hinv h hholder (hharmless ids known hholder)
    case h_2 => cases hstep
  | fails =>
    rw [State.step] at hstep
    split at hstep
    case h_1 =>
      cases hstep
      exact h
    case h_2 => cases hstep

theorem honest_reachable {allowed : State → Event → Prop} (hallowed : ∀ s e, allowed s e → Harmless s e) :
    (archive allowed).Invariant Honest :=
  TSys.Inductive.relative (inv_reachable allowed)
    (by
      rintro s rfl line hline
      cases hline)
    fun _ _ hinv _ h ⟨_, he, hstep⟩ => honest_step hinv h (hallowed _ _ he) hstep

/-- Whatever crashes cut, what returned Ok is read ever after, nothing is
written twice and no two lines become one; and in a run where what they leave
of a line is nothing or a recorded id, every line that is read is a recorded
id. -/
theorem archive_keeps_lines {allowed : State → Event → Prop} {s : State} (hreach : (archive allowed).Reachable s) :
    (∀ id ∈ s.ok, id ∈ readArchive s.file) ∧ s.written.Nodup ∧
      (∀ line ∈ lines lineFeed s.file, ∃ id ∈ s.recorded, line <+: encode id) ∧
        ((∀ s e, allowed s e → Harmless s e) → ∀ line ∈ readArchive s.file, line ∈ s.recorded) := by
  have hinv := inv_reachable allowed s hreach
  refine ⟨hinv.ok, hinv.nodup, hinv.apart, fun hallowed line hline => ?_⟩
  obtain ⟨hmem, hne⟩ := mem_readArchive.mp hline
  exact (honest_reachable hallowed s hreach line hmem).resolve_left hne

def vimeo : ArchiveId where
  text := "vimeo 12345".toList
  nonempty := by decide
  single := by decide
  trimmed := ⟨fun c hc => by cases hc; rfl, fun c hc => by cases hc; rfl⟩

/-- Takes the steps one after another. -/
def State.steps (s : State) (events : List Event) : Option State := events.foldlM State.step s

theorem reachable_steps {allowed : State → Event → Prop} {s s' : State} {events : List Event}
    (h : (archive allowed).Reachable s) (hallowed : ∀ s, ∀ e ∈ events, allowed s e)
    (hsteps : s.steps events = some s') : (archive allowed).Reachable s' := by
  induction events generalizing s with
  | nil =>
    cases hsteps
    exact h
  | cons e events ih =>
    obtain ⟨t, hstep, hrest⟩ := Option.bind_eq_some_iff.mp hsteps
    exact ih (.step h ⟨e, hallowed s e List.mem_cons_self, hstep⟩)
      (fun s e he => hallowed s e (List.mem_cons_of_mem _ he)) hrest

theorem vimeo_kept : ∃ s, State.start.steps [.lock [vimeo], .read, .append] = some s ∧
    (∀ id ∈ s.ok, id ∈ readArchive s.file) ∧ ∀ line ∈ readArchive s.file, line ∈ s.recorded := by
  have hreach : ∀ s, State.start.steps [.lock [vimeo], .read, .append] = some s → (archive Harmless).Reachable s :=
    fun s => reachable_steps (.init rfl) (by simp [Harmless])
  have hkeeps := archive_keeps_lines (hreach _ rfl)
  exact ⟨_, rfl, hkeeps.1, hkeeps.2.2.2 fun _ _ h => h⟩

/-- A crash after all but the last byte of an id leaves another video's id,
which no call recorded. -/
theorem cut_line_is_another_id : ∃ s, (archive fun _ _ => True).Reachable s ∧
    ∃ line ∈ readArchive s.file, line ∉ s.recorded := by
  refine ⟨_, reachable_steps (.init rfl) (fun _ _ _ => trivial)
    (rfl : State.start.steps [.lock [vimeo], .read, .cut 10] = some _), "vimeo 1234".toList, ?_, ?_⟩
  · decide
  · decide

end Media

end Hyperfetch
