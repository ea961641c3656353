import Hyperfetch.Engine.Names
import Hyperfetch.Torrent.Bencode

/-!
# The paths of a torrent's and a metalink's files

What `parse_torrent_bytes` takes from a .torrent: its name, its piece length and
count, and for each file that is no padding its path and length. `safe_path` is
what a metalink's file names go through. Whatever is accepted stays in its folder
(`no_path_leaves_the_folder`).

Left out: trackers and web seeds, which are no part of a path and never make a
torrent fail.
-/

namespace Hyperfetch.Torrent

open Weft

inductive TorrentError
  | bencode (error : BencodeError)
  | rootNotADictionary
  | missingInfo
  | unsafeName (raw : Text)
  | negative (what : String)
  | entryNotADictionary
  | entryWithoutLength
  | entryWithoutPath
  | componentNotAString
  | unsafePath (raw : List Text)
  | totalOverflows
  deriving DecidableEq, Repr

structure TorrentFile where
  /-- Path components below the torrent's root directory. -/
  path : List Text
  length : Nat
  deriving DecidableEq, Repr

structure TorrentInfo where
  name : Text
  totalLength : Nat
  pieceLength : Nat
  numPieces : Nat
  files : List TorrentFile
  deriving DecidableEq, Repr

def key (name : String) : List UInt8 := Utf8.encode name.toList

/-- A single path component that cannot escape the download directory. -/
def isSafeComponent (s : Text) : Bool :=
  !s.isEmpty && s != ['.'] && s != ['.', '.'] && !s.any fun c => c == '/' || c == '\\'

/-- `raw` as a file or directory name that is valid on every OS, or `none` if it
tries to escape the download directory or has nothing usable. -/
def localName (raw : Text) : Option Text :=
  if isSafeComponent raw then
    let name := sanitizeComponent raw
    if name.isEmpty then none else some name
  else none

def nonNegative (value : Int) (what : String) : Except TorrentError Nat :=
  if 0 ≤ value then .ok value.toNat else .error (.negative what)

/-- The components of a `path` list, as they are written. -/
def rawComponent : BValue → Except TorrentError Text
  | .bytes b => .ok (Utf8.lossy b)
  | _ => .error .componentNotAString

/-- A padding file only lines the next file up with a piece. -/
def isPadding (entry : List (List UInt8 × BValue)) (rawPath : List Text) : Bool :=
  match dictGet entry (key "attr") with
  | some (.bytes attr) => attr.contains 0x70
  | _ => rawPath.head?.any fun c => c == ".pad".toList || "_____padding_file_".toList.isPrefixOf c

def entryLength (fd : List (List UInt8 × BValue)) : Except TorrentError Nat :=
  match dictGet fd (key "length") with
  | some (.int l) => nonNegative l "file length"
  | _ => .error .entryWithoutLength

def entryPath (fd : List (List UInt8 × BValue)) : Except TorrentError (List Text) :=
  match dictGet fd (key "path") with
  | some (.list parts) => parts.mapM rawComponent
  | _ => .error .entryWithoutPath

/-- The file an entry of `files` is, if it is no padding. -/
def fileOf (entry : BValue) : Except TorrentError (Option TorrentFile) :=
  match entry with
  | .dict fd => do
    let length ← entryLength fd
    let rawPath ← entryPath fd
    if isPadding fd rawPath then .ok none
    else do
      let path ← okOr (.unsafePath rawPath) ((rawPath.mapM localName).filter fun p => !p.isEmpty)
      .ok (some ⟨path, length⟩)
  | _ => .error .entryNotADictionary

def filesOf : List BValue → Except TorrentError (List TorrentFile)
  | [] => .ok []
  | entry :: entries => do
    let file ← fileOf entry
    let files ← filesOf entries
    .ok (file.toList ++ files)

/-- `checked_add` over the lengths. -/
def totalOf : Nat → List TorrentFile → Option Nat
  | sum, [] => some sum
  | sum, f :: files => if sum + f.length ≤ u64Max then totalOf (sum + f.length) files else none

/-- The files of a torrent named `name`. -/
def torrentFiles (info : List (List UInt8 × BValue)) (name : Text) : Except TorrentError (List TorrentFile) :=
  match dictGet info (key "length") with
  | some (.int len) => do
    let length ← nonNegative len "length"
    .ok [⟨[name], length⟩]
  | _ =>
    match dictGet info (key "files") with
    | some (.list entries) => filesOf entries
    | _ => .ok []

def rawNameOf (info : List (List UInt8 × BValue)) : Text :=
  match dictGet info (key "name") with
  | some (.bytes b) => Utf8.lossy b
  | _ => "torrent_download".toList

def pieceLengthOf (info : List (List UInt8 × BValue)) : Except TorrentError Nat :=
  match dictGet info (key "piece length") with
  | some (.int i) => nonNegative i "piece length"
  | _ => .ok 0

def numPiecesOf (info : List (List UInt8 × BValue)) : Nat :=
  match dictGet info (key "pieces") with
  | some (.bytes b) => b.length / 20
  | _ => 0

/-- What the `info` dictionary says. -/
def torrentInfo (info : List (List UInt8 × BValue)) : Except TorrentError TorrentInfo := do
  let name ← okOr (.unsafeName (rawNameOf info)) (localName (rawNameOf info))
  let pieceLength ← pieceLengthOf info
  let files ← torrentFiles info name
  let totalLength ← okOr .totalOverflows (totalOf 0 files)
  .ok ⟨name, totalLength, pieceLength, numPiecesOf info, files⟩

/-- Parses a .torrent file's bytes. -/
def parseTorrentBytes (data : List UInt8) : Except TorrentError TorrentInfo :=
  match decodeBencode data (maxBencodeDepth + 1) 0 with
  | .error e => .error (.bencode e)
  | .ok (.dict root, _) =>
    match dictGet root (key "info") with
    | some (.dict info) => torrentInfo info
    | _ => .error .missingInfo
  | .ok _ => .error .rootNotADictionary

/-! ## Metalinks -/

inductive MetalinkError
  | unsafeName (name : Text)
  deriving DecidableEq, Repr

def isSeparator (c : Char) : Bool := c == '/' || c == '\\'

/-- `C:\` and the like. -/
def hasDrive (name : Text) : Bool :=
  match name with
  | letter :: ':' :: c :: _ => letter.isAlpha && isSeparator c
  | _ => false

/-- A metalink file name as a relative path, each component made valid on every OS. -/
def safePath (name : Text) : Except MetalinkError Text :=
  if name.head?.any isSeparator || hasDrive name then .error (.unsafeName name)
  else
    let parts := (name.splitOnP isSeparator).filter fun p => !p.isEmpty && p != ['.']
    if parts.isEmpty || parts.contains ['.', '.'] then .error (.unsafeName name)
    else
      let parts := parts.map sanitizeComponent
      if parts.any (·.isEmpty) then .error (.unsafeName name) else .ok (['/'].intercalate parts)

/-! ## What is accepted -/

/-- A path below a folder: components, each of them safe. -/
def SafePath (path : List Text) : Prop := path ≠ [] ∧ ∀ name ∈ path, SafeComponent name

theorem localName_safe {raw name : Text} (h : localName raw = some name) : SafeComponent name := by
  unfold localName at h
  split at h
  · dsimp only at h
    split at h
    · cases h
    · rename_i hne
      cases h
      apply sanitizeComponent_safe
      intro hnil
      rw [hnil] at hne
      exact hne rfl
  · cases h

theorem mapM_localName_safe {raw path : List Text} (h : raw.mapM localName = some path) :
    ∀ name ∈ path, SafeComponent name := by
  induction raw generalizing path with
  | nil =>
    rw [List.mapM_nil] at h
    cases h
    intro name hname
    exact absurd hname List.not_mem_nil
  | cons r raw ih =>
    rw [List.mapM_cons] at h
    simp only [Option.bind_eq_bind, Option.bind_eq_some_iff, Option.pure_def] at h
    obtain ⟨first, hfirst, rest, hrest, hpath⟩ := h
    cases hpath
    intro name hname
    rcases List.mem_cons.mp hname with rfl | hname
    · exact localName_safe hfirst
    · exact ih hrest name hname

theorem fileOf_safe {entry : BValue} {file : TorrentFile} (h : fileOf entry = .ok (some file)) : SafePath file.path := by
  unfold fileOf at h
  split at h
  · obtain ⟨length, _, h⟩ := bind_eq_ok.mp h
    obtain ⟨rawPath, _, h⟩ := bind_eq_ok.mp h
    split at h
    · cases h
    · obtain ⟨path, hpath, h⟩ := bind_eq_ok.mp h
      cases h
      obtain ⟨hmap, hne⟩ := Option.filter_eq_some_iff.mp (okOr_eq_ok.mp hpath)
      refine ⟨?_, mapM_localName_safe hmap⟩
      rintro rfl
      cases hne
  · cases h

theorem filesOf_safe {entries : List BValue} {files : List TorrentFile} (h : filesOf entries = .ok files) :
    ∀ file ∈ files, SafePath file.path := by
  induction entries generalizing files with
  | nil =>
    cases h
    intro file hfile
    exact absurd hfile List.not_mem_nil
  | cons entry entries ih =>
    obtain ⟨first, hfirst, h⟩ := bind_eq_ok.mp h
    obtain ⟨more, hmore, h⟩ := bind_eq_ok.mp h
    cases h
    intro file hfile
    rcases List.mem_append.mp hfile with hfile | hfile
    · rw [Option.mem_toList] at hfile
      subst hfile
      exact fileOf_safe hfirst
    · exact ih hmore file hfile

theorem torrentFiles_safe {info : List (List UInt8 × BValue)} {name : Text} {files : List TorrentFile}
    (hname : SafeComponent name) (h : torrentFiles info name = .ok files) : ∀ file ∈ files, SafePath file.path := by
  unfold torrentFiles at h
  split at h
  · obtain ⟨length, _, h⟩ := bind_eq_ok.mp h
    cases h
    intro file hfile
    rw [List.mem_singleton] at hfile
    subst hfile
    refine ⟨List.cons_ne_nil _ _, ?_⟩
    intro component hcomponent
    exact List.mem_singleton.mp hcomponent ▸ hname
  · split at h
    · exact filesOf_safe h
    · cases h
      intro file hfile
      exact absurd hfile List.not_mem_nil

/-- The lengths were added up, and no sum went over `u64`. -/
theorem totalOf_eq_some {files : List TorrentFile} {sum total : Nat} (hsum : sum ≤ u64Max) (h : totalOf sum files = some total) :
    total = sum + (files.map (·.length)).sum ∧ total ≤ u64Max := by
  induction files generalizing sum with
  | nil =>
    cases h
    exact ⟨rfl, hsum⟩
  | cons f files ih =>
    unfold totalOf at h
    split at h
    · rename_i hle
      obtain ⟨htotal, hmax⟩ := ih hle h
      refine ⟨?_, hmax⟩
      rw [htotal, List.map_cons, List.sum_cons, Nat.add_assoc]
    · cases h

theorem torrentInfo_safe {info : List (List UInt8 × BValue)} {t : TorrentInfo} (h : torrentInfo info = .ok t) :
    SafeComponent t.name ∧ (∀ file ∈ t.files, SafePath file.path) ∧
      t.totalLength = (t.files.map (·.length)).sum ∧ t.totalLength ≤ u64Max := by
  obtain ⟨name, hname, h⟩ := bind_eq_ok.mp h
  obtain ⟨pieceLength, _, h⟩ := bind_eq_ok.mp h
  obtain ⟨files, hfiles, h⟩ := bind_eq_ok.mp h
  obtain ⟨total, htotal, h⟩ := bind_eq_ok.mp h
  cases h
  have hsafe := localName_safe (okOr_eq_ok.mp hname)
  obtain ⟨hsum, hmax⟩ := totalOf_eq_some (Nat.zero_le _) (okOr_eq_ok.mp htotal)
  refine ⟨hsafe, torrentFiles_safe hsafe hfiles, ?_, hmax⟩
  rw [← Nat.zero_add (files.map (·.length)).sum]
  exact hsum

/-- A metalink's path is made of safe components, joined by `/`. -/
theorem safePath_safe {name path : Text} (h : safePath name = .ok path) : SafePath (path.splitOn '/') := by
  unfold safePath at h
  split at h
  · cases h
  · dsimp only at h
    split at h
    · cases h
    · rename_i hparts
      split at h
      · cases h
      · rename_i hempty
        cases h
        generalize (name.splitOnP isSeparator).filter (fun p => !p.isEmpty && p != ['.']) = parts at hparts hempty ⊢
        have hsafe : ∀ part ∈ parts.map sanitizeComponent, SafeComponent part := by
          intro part hpart
          obtain ⟨raw, hraw, rfl⟩ := List.mem_map.mp hpart
          apply sanitizeComponent_safe
          intro hnil
          apply hempty
          rw [List.any_eq_true]
          exact ⟨_, hpart, by rw [hnil]; rfl⟩
        rw [List.splitOn_intercalate]
        · refine ⟨?_, hsafe⟩
          intro hnil
          rw [List.map_eq_nil_iff] at hnil
          subst hnil
          exact hparts rfl
        · intro part hpart hin
          exact ((hsafe part hpart).valid '/' hin).1 rfl
        · intro hnil
          rw [List.map_eq_nil_iff] at hnil
          subst hnil
          exact hparts rfl

/-- **No path leaves the folder.** Whatever bytes a torrent is parsed from, once it
is accepted its name and every component of every file's path are safe, every file
has a path, and its length is exactly the sum of its files'; a metalink's accepted
name is a path of safe components. -/
theorem no_path_leaves_the_folder :
    (∀ (data : List UInt8) (t : TorrentInfo), parseTorrentBytes data = .ok t →
      SafeComponent t.name ∧ (∀ file ∈ t.files, SafePath file.path) ∧
        t.totalLength = (t.files.map (·.length)).sum ∧ t.totalLength ≤ u64Max) ∧
    ∀ name path : Text, safePath name = .ok path → SafePath (path.splitOn '/') := by
  refine ⟨?_, fun name path h => safePath_safe h⟩
  intro data t h
  unfold parseTorrentBytes at h
  split at h
  · cases h
  · split at h
    · exact torrentInfo_safe h
    · cases h
  · cases h

/-- Two files, one in a folder of its own, and a metalink's name with both separators. -/
theorem no_path_leaves_the_folder_two :
    (∃ t : TorrentInfo,
      parseTorrentBytes (key "d4:infod5:filesld6:lengthi5e4:pathl1:aeed6:lengthi7e4:pathl1:b2:c.eee4:name1:nee") = .ok t ∧
        t.files = [⟨["a".toList], 5⟩, ⟨["b".toList, "c".toList], 7⟩] ∧
        SafeComponent t.name ∧ (∀ file ∈ t.files, SafePath file.path) ∧
        t.totalLength = (t.files.map (·.length)).sum ∧ t.totalLength ≤ u64Max) ∧
      SafePath ("dir/_/file.iso".toList.splitOn '/') := by
  have hparse : parseTorrentBytes
      (key "d4:infod5:filesld6:lengthi5e4:pathl1:aeed6:lengthi7e4:pathl1:b2:c.eee4:name1:nee") =
        .ok ⟨"n".toList, 12, 0, 0, [⟨["a".toList], 5⟩, ⟨["b".toList, "c".toList], 7⟩]⟩ := by decide +kernel
  have hpath : safePath "dir\\?/./file.iso.".toList = .ok "dir/_/file.iso".toList := by decide +kernel
  exact ⟨⟨_, hparse, rfl, no_path_leaves_the_folder.1 _ _ hparse⟩, no_path_leaves_the_folder.2 _ _ hpath⟩

end Hyperfetch.Torrent
