import Hyperfetch.Engine.Names
import Hyperfetch.Text

/-!
# A Drive folder's files

folders.rs: what the children of a Drive folder are taken for, and the walk that lists every
file under a folder. An id is one segment of a link's path, as Drive makes them.
-/

namespace Hyperfetch.Folders

open Weft

/-- A path under the save folder, by its components. -/
abbrev Path : Type := List Text

/-- The id of a Drive item: something is left of it as a path component. -/
structure DriveId where
  text : Text
  usable : sanitizeComponent text ≠ []
deriving DecidableEq

structure DriveShortcut where
  targetId : DriveId
  targetMimeType : Text
  targetResourceKey : Option Text

/-- An item as the Drive API describes it. -/
structure DriveItem where
  id : DriveId
  name : Text
  mimeType : Text
  /-- A decimal string. -/
  size : Option Text
  md5Checksum : Option Text
  resourceKey : Option Text
  shortcutDetails : Option DriveShortcut

/-- A document of Docs, Sheets or Slides, and what it is exported as. -/
structure Export where
  editor : Text
  format : Text
  id : DriveId
  resourceKey : Option Text

inductive Kind where
  | folder
  | file
  | export (e : Export)
  /-- A form, drawing, site or other item with nothing to download. -/
  | other

/-- A child of a Drive folder. -/
structure DriveChild where
  id : DriveId
  name : Text
  kind : Kind
  resourceKey : Option Text
  size : Option ℕ
  md5 : Option Text
  /-- Reached through a shortcut: the id is the target's. -/
  shortcut : Bool

/-- `google_docs_export` of the editor's link: `/d/e` is a published copy. -/
def docsExport (editor format : String) (id : DriveId) (resourceKey : Option Text) : Kind :=
  if id.text = ['e'] then .other else .export ⟨editor.toList, format.toList, id, resourceKey⟩

/-- What a Drive item of this MIME type is. -/
def driveKind (id : DriveId) (mimeType : Text) (resourceKey : Option Text) : Kind :=
  match "application/vnd.google-apps.".toList.isPrefixOf? mimeType with
  | none => .file
  | some app =>
    if app = "folder".toList then .folder
    else if app = "document".toList then docsExport "document" "docx" id resourceKey
    else if app = "spreadsheet".toList then docsExport "spreadsheets" "xlsx" id resourceKey
    else if app = "presentation".toList then docsExport "presentation" "pptx" id resourceKey
    else .other

/-- `DriveChild::from`: a shortcut stands for its target, under the shortcut's name. -/
def DriveChild.from (item : DriveItem) : DriveChild :=
  let target := item.shortcutDetails.filter fun _ => item.mimeType = "application/vnd.google-apps.shortcut".toList
  match target with
  | some t =>
    { id := t.targetId, name := item.name, kind := driveKind t.targetId t.targetMimeType t.targetResourceKey
      resourceKey := t.targetResourceKey, size := none, md5 := none, shortcut := true }
  | none =>
    { id := item.id, name := item.name, kind := driveKind item.id item.mimeType item.resourceKey
      resourceKey := item.resourceKey, size := item.size.bind parseU64, md5 := item.md5Checksum, shortcut := false }

/-- What a file is downloaded from. -/
inductive Link where
  | direct (id : DriveId) (resourceKey : Option Text)
  | export (e : Export)

structure Task where
  urls : List Link
  folder : Option Path
  name : Option Text
  size : Option ℕ
  checksum : Option Text
  fromDocument : Bool
  archive : List Text

/-- A child of a folder as a listing takes it. -/
inductive Child where
  | folder (id : DriveId) (resourceKey : Option Text) (path : Path)
  | file (task : Task)
  | other

/-- Why a folder could not be read. -/
structure Failed where
  message : Text

/-- Why a listing fails. -/
inductive ListError where
  | unreadable (e : Failed)
  | unusableName (name : Text)
  | tooMany

def maxItems : ℕ := 100000

def ListError.text : ListError → Text
  | .unreadable e => e.message
  | .unusableName name => "unusable file name ".toList ++ name
  | .tooMany =>
    s!"the folder lists more than {maxItems} items, or its listing does not end: add a subfolder's link instead".toList

/-- `name` made one path component, else `id`. -/
def component (name : Text) (id : DriveId) : Except ListError Text :=
  match cleanComponent name with
  | some c => .ok c
  | none =>
    match cleanComponent id.text with
    | some c => .ok c
    | none => .error (.unusableName id.text)

/-- Its line in the download archive. -/
def DriveChild.archiveLine (c : DriveChild) : Text :=
  match c.md5 with
  | some md5 => "gdrive ".toList ++ c.id.text ++ ' ' :: md5
  | none => "gdrive ".toList ++ c.id.text

def isHexDigit (c : Char) : Bool := c.isDigit || ('a' ≤ c && c ≤ 'f') || ('A' ≤ c && c ≤ 'F')

/-- `md5:` and the checksum, if it is one. -/
def checksumOf (md5 : Text) : Option Text :=
  if (trim md5).length = 32 ∧ (trim md5).all isHexDigit then some ("md5:".toList ++ md5) else none

/-- `name` ending in `.extension`. -/
def withExtension (name extension : Text) : Text :=
  let dotted := '.' :: extension
  if extension = [] ∨ dotted.isSuffixOf (name.map Char.toLower) then name else name ++ dotted

/-- What this child of the folder at `folder` becomes. -/
def DriveChild.intoChild (c : DriveChild) (folder : Path) : Except ListError Child :=
  let task (urls : List Link) (name : Text) (size : Option ℕ) (checksum : Option Text) : Except ListError Child := do
    let name ← component name c.id
    return .file
      { urls, folder := some folder, name := some name, size, checksum, fromDocument := true, archive := [c.archiveLine] }
  match c.kind with
  | .folder => do
    let name ← component c.name c.id
    return .folder c.id c.resourceKey (folder ++ [name])
  | .file => task [.direct c.id c.resourceKey] c.name c.size (c.md5.bind checksumOf)
  | .export e => task [.export e] (withExtension c.name e.format) none none
  | .other => .ok .other

/-! ## The walk -/

/-- A folder to read: its path, but for the first, which is named when it is read. -/
structure Waiting where
  id : DriveId
  resourceKey : Option Text
  path : Option Path

/-- The children of a folder, and its name if it is asked for. -/
abbrev Read : Type := DriveId → Option Text → Bool → Except Failed (Option Text × List DriveChild)

/-- The variables of `drive_list`; each task is kept with its file's id. -/
structure Walk where
  queue : List Waiting
  listed : List DriveId
  files : List DriveId
  tasks : List (DriveId × Task)
  shortcuts : List (DriveId × Task)
  unread : List (Path × Failed)
  leftOut : ℕ
  read : ℕ
  /-- The folders that were read, in order. -/
  reads : List DriveId

/-- A file's task, unless one was made for it. -/
def Walk.addTask (w : Walk) (file : DriveId) (task : Task) : Walk :=
  if file ∈ w.files then w else { w with files := file :: w.files, tasks := w.tasks ++ [(file, task)] }

/-- One child of the folder at `folder`, 481–492. -/
def takeChild (folder : Path) (w : Walk) (child : DriveChild) : Except ListError Walk := do
  match ← child.intoChild folder with
  | .folder id resourceKey path => return { w with queue := w.queue ++ [⟨id, resourceKey, some path⟩] }
  | .file task =>
    if child.shortcut then return { w with shortcuts := w.shortcuts ++ [(child.id, task)] }
    else return w.addTask child.id task
  | .other => return { w with leftOut := w.leftOut + 1 }

def takeChildren (folder : Path) : List DriveChild → Walk → Except ListError Walk
  | [], w => .ok w
  | child :: children, w => takeChild folder w child >>= takeChildren folder children

theorem addTask_queue (w : Walk) (file : DriveId) (task : Task) : (w.addTask file task).queue = w.queue := by
  unfold Walk.addTask
  split <;> rfl

theorem addTask_read (w : Walk) (file : DriveId) (task : Task) : (w.addTask file task).read = w.read := by
  unfold Walk.addTask
  split <;> rfl

theorem takeChild_queue {folder : Path} {w w' : Walk} {child : DriveChild} (h : takeChild folder w child = .ok w') :
    w'.queue.length ≤ w.queue.length + 1 ∧ w'.read = w.read := by
  obtain ⟨c, -, h⟩ := bind_eq_ok.mp h
  cases c with
  | folder =>
    cases h
    exact ⟨by simp, rfl⟩
  | file task =>
    simp only at h
    split at h
    · cases h
      exact ⟨Nat.le_succ _, rfl⟩
    · cases h
      rw [addTask_queue, addTask_read]
      exact ⟨Nat.le_succ _, rfl⟩
  | other =>
    cases h
    exact ⟨Nat.le_succ _, rfl⟩

/-- No more folders wait than there were children. -/
theorem takeChildren_queue {folder : Path} {children : List DriveChild} {w w' : Walk} (h : takeChildren folder children w = .ok w') :
    w'.queue.length ≤ w.queue.length + children.length ∧ w'.read = w.read := by
  induction children generalizing w with
  | nil =>
    cases h
    exact ⟨le_rfl, rfl⟩
  | cons child children ih =>
    obtain ⟨w₁, hfirst, hrest⟩ := bind_eq_ok.mp h
    obtain ⟨hlen, hread⟩ := takeChild_queue hfirst
    obtain ⟨hlen', hread'⟩ := ih hrest
    refine ⟨?_, hread'.trans hread⟩
    rw [List.length_cons]
    omega

/-- The path of a folder that was read. -/
def folderPath (path : Option Path) (name : Option Text) (id : DriveId) : Except ListError Path :=
  match path with
  | some path => .ok path
  | none => (component (name.getD []) id).map fun c => [c]

/-- The loop of `drive_list`: a folder that was listed is passed over, any other one read. -/
def driveLoop (read : Read) (w : Walk) : Except ListError Walk :=
  match hqueue : w.queue with
  | [] => .ok w
  | ⟨id, resourceKey, path⟩ :: queue =>
    if id ∈ w.listed then driveLoop read { w with queue }
    else
      match read id resourceKey path.isNone with
      | .error e =>
        match path with
        | some path =>
          driveLoop read { w with queue, listed := id :: w.listed, reads := w.reads ++ [id], unread := w.unread ++ [(path, e)] }
        | none => .error (.unreadable e)
      | .ok (name, children) =>
        match folderPath path name id with
        | .error e => .error e
        | .ok folder =>
          if hmany : w.read + children.length > maxItems then .error .tooMany
          else
            match htake : takeChildren folder children
                { w with queue, listed := id :: w.listed, reads := w.reads ++ [id], read := w.read + children.length } with
            | .error e => .error e
            | .ok w' => driveLoop read w'
termination_by w.queue.length + (maxItems - w.read)
decreasing_by
  · simp only [hqueue, List.length_cons]
    omega
  · simp only [hqueue, List.length_cons]
    omega
  · obtain ⟨hlen, hread⟩ := takeChildren_queue htake
    simp only at hlen hread
    rw [hqueue, List.length_cons]
    omega

/-- What is listed. -/
structure Listing where
  tasks : List (DriveId × Task)
  reads : List DriveId
  leftOut : ℕ
  unread : List (Path × Failed)

/-- `drive_list`: the shortcuts to files come last. -/
def driveList (read : Read) (id : DriveId) (resourceKey : Option Text) : Except ListError Listing := do
  let w ← driveLoop read
    { queue := [⟨id, resourceKey, none⟩], listed := [], files := [], tasks := [], shortcuts := [], unread := [], leftOut := 0, read := 0
      reads := [] }
  let all := w.shortcuts.foldl (fun w s => w.addTask s.1 s.2) w
  return { tasks := all.tasks, reads := w.reads, leftOut := w.leftOut, unread := w.unread }

end Hyperfetch.Folders
