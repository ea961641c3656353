import Hyperfetch.Folders.Drive
import Hyperfetch.Weft.Breadth
import Hyperfetch.Weft.Recent

/-!
# Where a Drive folder's files go

Every folder that can be reached is read once and every file gets one task. A file that real
folders hold is saved where the walk first comes to one of them, which may be by a shortcut:
`listed_in_place_iff` says when every such file is saved under real folders alone.
-/

namespace Hyperfetch.Folders

open Weft

/-! ## What one folder gives -/

def DriveChild.isFolder (c : DriveChild) : Bool :=
  match c.kind with
  | .folder => true
  | _ => false

/-- A file, or a document that is exported as one. -/
def DriveChild.isFile (c : DriveChild) : Bool :=
  match c.kind with
  | .file => true
  | .export _ => true
  | _ => false

/-- The component a name becomes: an id can always stand for it. -/
def componentOf (name : Text) (id : DriveId) : Text := (cleanComponent name).getD (sanitizeComponent id.text)

theorem component_eq (name : Text) (id : DriveId) : component name id = .ok (componentOf name id) := by
  have hid : cleanComponent id.text = some (sanitizeComponent id.text) := if_neg id.usable
  unfold component componentOf
  rw [hid]
  cases cleanComponent name with
  | none => rfl
  | some c => rfl

/-- The task of a file in the folder at `folder`. -/
def fileTask (c : DriveChild) (folder : Path) : Task :=
  let task (urls : List Link) (name : Text) (size : Option ℕ) (checksum : Option Text) : Task :=
    { urls, folder := some folder, name := some (componentOf name c.id), size, checksum, fromDocument := true
      archive := [c.archiveLine] }
  match c.kind with
  | .export e => task [.export e] (withExtension c.name e.format) none none
  | _ => task [.direct c.id c.resourceKey] c.name c.size (c.md5.bind checksumOf)

theorem fileTask_folder (c : DriveChild) (folder : Path) : (fileTask c folder).folder = some folder := by
  unfold fileTask
  cases c.kind <;> rfl

/-- The folders that `children` add to those that wait. -/
def waitingOf (folder : Path) (children : List DriveChild) : List Waiting :=
  (children.filter DriveChild.isFolder).map fun c => ⟨c.id, c.resourceKey, some (folder ++ [componentOf c.name c.id])⟩

/-- The tasks of the files among `children`, of shortcuts or of the files themselves. -/
def tasksOf (shortcut : Bool) (folder : Path) (children : List DriveChild) : List (DriveId × Task) :=
  (children.filter fun c => c.isFile && (c.shortcut == shortcut)).map fun c => (c.id, fileTask c folder)

theorem waitingOf_append (folder : Path) (cs ds : List DriveChild) :
    waitingOf folder (cs ++ ds) = waitingOf folder cs ++ waitingOf folder ds := by
  unfold waitingOf
  rw [List.filter_append, List.map_append]

theorem tasksOf_append (shortcut : Bool) (folder : Path) (cs ds : List DriveChild) :
    tasksOf shortcut folder (cs ++ ds) = tasksOf shortcut folder cs ++ tasksOf shortcut folder ds := by
  unfold tasksOf
  rw [List.filter_append, List.map_append]

theorem mem_tasksOf {shortcut : Bool} {folder : Path} {children : List DriveChild} {f : DriveId} {task : Task} :
    (f, task) ∈ tasksOf shortcut folder children ↔
      ∃ c ∈ children, c.isFile = true ∧ c.shortcut = shortcut ∧ c.id = f ∧ fileTask c folder = task := by
  unfold tasksOf
  simp only [List.mem_map, List.mem_filter, Bool.and_eq_true, beq_iff_eq, Prod.mk.injEq]
  constructor
  · rintro ⟨c, ⟨hc, hfile, hshortcut⟩, hid, htask⟩
    exact ⟨c, hc, hfile, hshortcut, hid, htask⟩
  · rintro ⟨c, hc, hfile, hshortcut, hid, htask⟩
    exact ⟨c, ⟨hc, hfile, hshortcut⟩, hid, htask⟩

/-- The tasks kept are the first for each file of the tasks `all` that came. -/
structure Filed (w : Walk) (all : List (DriveId × Task)) : Prop where
  tasks : w.tasks = keepFirst Prod.fst [] all
  files : ∀ f, f ∈ w.files ↔ f ∈ all.map Prod.fst

theorem Filed.addTask {w : Walk} {all : List (DriveId × Task)} (h : Filed w all) (file : DriveId) (task : Task) :
    Filed (w.addTask file task) (all ++ [(file, task)]) := by
  have hkept : keepFirst Prod.fst [] (all ++ [(file, task)]) =
      w.tasks ++ if file ∈ w.files then [] else [(file, task)] := by
    rw [keepFirst_append, h.tasks, List.append_nil]
    simp only [keepFirst, h.files file]
  unfold Walk.addTask
  by_cases hfile : file ∈ w.files
  · rw [if_pos hfile] at hkept ⊢
    refine ⟨hkept.symm ▸ (List.append_nil _).symm, ?_⟩
    intro f
    rw [List.map_append, List.mem_append, ← h.files f, List.map_singleton, List.mem_singleton]
    refine (or_iff_left_of_imp ?_).symm
    rintro rfl
    exact hfile
  · rw [if_neg hfile] at hkept ⊢
    refine ⟨hkept.symm, ?_⟩
    intro f
    show f ∈ file :: w.files ↔ _
    rw [List.map_append, List.mem_append, ← h.files f, List.mem_cons, or_comm, List.map_singleton, List.mem_singleton]

theorem Filed.addTasks {w : Walk} {all : List (DriveId × Task)} (h : Filed w all) (tasks : List (DriveId × Task)) :
    Filed (tasks.foldl (fun w s => w.addTask s.1 s.2) w) (all ++ tasks) := by
  induction tasks generalizing w all with
  | nil =>
    rw [List.append_nil]
    exact h
  | cons t tasks ih =>
    rw [List.append_cons]
    exact ih (h.addTask t.1 t.2)

/-- What children of the folder at `folder` do to the walk. -/
structure Took (folder : Path) (children : List DriveChild) (w w' : Walk) : Prop where
  queue : w'.queue = w.queue ++ waitingOf folder children
  shortcuts : w'.shortcuts = w.shortcuts ++ tasksOf true folder children
  listed : w'.listed = w.listed
  reads : w'.reads = w.reads
  read : w'.read = w.read
  filed : ∀ all, Filed w all → Filed w' (all ++ tasksOf false folder children)

theorem Took.trans {folder : Path} {cs ds : List DriveChild} {w w₁ w₂ : Walk} (h₁ : Took folder cs w w₁) (h₂ : Took folder ds w₁ w₂) :
    Took folder (cs ++ ds) w w₂ where
  queue := by rw [h₂.queue, h₁.queue, waitingOf_append, List.append_assoc]
  shortcuts := by rw [h₂.shortcuts, h₁.shortcuts, tasksOf_append, List.append_assoc]
  listed := h₂.listed.trans h₁.listed
  reads := h₂.reads.trans h₁.reads
  read := h₂.read.trans h₁.read
  filed := by
    intro all hall
    rw [tasksOf_append, ← List.append_assoc]
    exact h₂.filed _ (h₁.filed all hall)

/-- What a child is taken for. -/
def childOf (c : DriveChild) (folder : Path) : Child :=
  if c.isFolder then .folder c.id c.resourceKey (folder ++ [componentOf c.name c.id])
  else if c.isFile then .file (fileTask c folder)
  else .other

theorem intoChild_eq (c : DriveChild) (folder : Path) : c.intoChild folder = .ok (childOf c folder) := by
  unfold DriveChild.intoChild childOf DriveChild.isFolder DriveChild.isFile fileTask
  cases c.kind with
  | folder =>
    simp only [component_eq]
    rfl
  | file =>
    simp only [component_eq]
    rfl
  | «export» e =>
    simp only [component_eq]
    rfl
  | other => rfl

theorem isFile_eq_false {c : DriveChild} (h : c.isFolder = true) : c.isFile = false := by
  unfold DriveChild.isFolder at h
  unfold DriveChild.isFile
  split at h
  · rename_i hkind
    rw [hkind]
  · cases h

theorem Filed.congr {w w' : Walk} {all : List (DriveId × Task)} (h : Filed w all) (htasks : w'.tasks = w.tasks)
    (hfiles : w'.files = w.files) : Filed w' all := by
  refine ⟨?_, ?_⟩
  · rw [htasks]
    exact h.tasks
  · rw [hfiles]
    exact h.files

theorem takeChild_eq (folder : Path) (w : Walk) (c : DriveChild) :
    takeChild folder w c = .ok
      (if c.isFolder then { w with queue := w.queue ++ [⟨c.id, c.resourceKey, some (folder ++ [componentOf c.name c.id])⟩] }
      else if c.isFile then
        if c.shortcut then { w with shortcuts := w.shortcuts ++ [(c.id, fileTask c folder)] } else w.addTask c.id (fileTask c folder)
      else { w with leftOut := w.leftOut + 1 }) := by
  rw [takeChild, intoChild_eq]
  unfold childOf
  by_cases hfolder : c.isFolder = true
  · rw [if_pos hfolder, if_pos hfolder]
    rfl
  · rw [if_neg hfolder, if_neg hfolder]
    by_cases hfile : c.isFile = true
    · rw [if_pos hfile, if_pos hfile]
      show (if c.shortcut then Except.ok _ else Except.ok _) = _
      split <;> rfl
    · rw [if_neg hfile, if_neg hfile]
      rfl

theorem addTask_frame (w : Walk) (file : DriveId) (task : Task) :
    (w.addTask file task).shortcuts = w.shortcuts ∧ (w.addTask file task).listed = w.listed ∧ (w.addTask file task).reads = w.reads := by
  unfold Walk.addTask
  split <;> exact ⟨rfl, rfl, rfl⟩

theorem takeChild_took (folder : Path) (w : Walk) (c : DriveChild) : ∃ w', takeChild folder w c = .ok w' ∧ Took folder [c] w w' := by
  refine ⟨_, takeChild_eq folder w c, ?_⟩
  by_cases hfolder : c.isFolder = true
  · have hfile : c.isFile = false := isFile_eq_false hfolder
    rw [if_pos hfolder]
    refine ⟨?_, ?_, rfl, rfl, rfl, ?_⟩
    · simp [waitingOf, hfolder]
    · simp [tasksOf, hfile]
    · intro all hall
      have hnone : tasksOf false folder [c] = [] := by simp [tasksOf, hfile]
      rw [hnone, List.append_nil]
      exact hall.congr rfl rfl
  · rw [if_neg hfolder]
    have hwaiting : waitingOf folder [c] = [] := by simp [waitingOf, hfolder]
    by_cases hfile : c.isFile = true
    · rw [if_pos hfile]
      by_cases hshortcut : c.shortcut = true
      · rw [if_pos hshortcut]
        refine ⟨?_, ?_, rfl, rfl, rfl, ?_⟩
        · simp [hwaiting]
        · simp [tasksOf, hfile, hshortcut]
        · intro all hall
          have hnone : tasksOf false folder [c] = [] := by simp [tasksOf, hshortcut]
          rw [hnone, List.append_nil]
          exact hall.congr rfl rfl
      · rw [if_neg hshortcut]
        obtain ⟨hshortcuts, hlisted, hreads⟩ := addTask_frame w c.id (fileTask c folder)
        refine ⟨?_, ?_, hlisted, hreads, addTask_read w _ _, ?_⟩
        · rw [addTask_queue, hwaiting, List.append_nil]
        · have hnone : tasksOf true folder [c] = [] := by simp [tasksOf, hshortcut]
          rw [hnone, List.append_nil]
          exact hshortcuts
        · intro all hall
          have hone : tasksOf false folder [c] = [(c.id, fileTask c folder)] := by simp [tasksOf, hfile, hshortcut]
          rw [hone]
          exact hall.addTask c.id (fileTask c folder)
    · rw [if_neg hfile]
      refine ⟨?_, ?_, rfl, rfl, rfl, ?_⟩
      · simp [hwaiting]
      · simp [tasksOf, hfile]
      · intro all hall
        have hnone : tasksOf false folder [c] = [] := by simp [tasksOf, hfile]
        rw [hnone, List.append_nil]
        exact hall.congr rfl rfl

theorem takeChildren_took (folder : Path) (children : List DriveChild) (w : Walk) :
    ∃ w', takeChildren folder children w = .ok w' ∧ Took folder children w w' := by
  induction children generalizing w with
  | nil =>
    refine ⟨w, rfl, ?_, ?_, rfl, rfl, rfl, ?_⟩
    · exact (List.append_nil _).symm
    · exact (List.append_nil _).symm
    · intro all hall
      show Filed w (all ++ [])
      rw [List.append_nil]
      exact hall
  | cons c children ih =>
    obtain ⟨w₁, htake, hfirst⟩ := takeChild_took folder w c
    obtain ⟨w₂, hrest, htook⟩ := ih w₁
    refine ⟨w₂, ?_, hfirst.trans htook⟩
    show takeChild folder w c >>= takeChildren folder children = _
    rw [htake]
    exact hrest

/-! ## The folders that can be reached -/

section

variable (items : DriveId → List DriveItem)

def childrenOf (x : DriveId) : List DriveChild := (items x).map DriveChild.from

/-- The folders in a folder, those that shortcuts stand for too. -/
def subfolders (x : DriveId) : List DriveChild := (childrenOf items x).filter DriveChild.isFolder

/-- `r` leads from the folder `root` to `x`, through `es`. -/
def Leads (root : DriveId) (r : List ℕ) (es : List DriveChild) (x : DriveId) : Prop :=
  edges (subfolders items) DriveChild.id root r = some es ∧ follow (subfolders items) DriveChild.id root r = some x

def Reachable (root x : DriveId) : Prop := ∃ r, follow (subfolders items) DriveChild.id root r = some x

/-- The file `f` is in the folder `x`, or a shortcut to it. -/
def Lists (x f : DriveId) : Prop := ∃ c ∈ childrenOf items x, c.isFile = true ∧ c.id = f

/-- The file `f` itself is in the folder `x`. -/
def Holds (x f : DriveId) : Prop := ∃ c ∈ childrenOf items x, c.isFile = true ∧ c.shortcut = false ∧ c.id = f

/-- The path along `es`, from the first folder's. -/
def pathOf (top : Path) (es : List DriveChild) : Path := top ++ es.map fun c => componentOf c.name c.id

/-- The paths of real folders alone to a folder that holds `f`. -/
def places (root : DriveId) (top : Path) (f : DriveId) : Set Path :=
  { p | ∃ r es x, Leads items root r es x ∧ (∀ c ∈ es, c.shortcut = false) ∧ Holds items x f ∧ p = pathOf top es }

/-- The first way to a folder that holds `f`: the shortest, of equally short ones the first by
the places of the children it goes through. -/
def FirstWay (root f : DriveId) (r : List ℕ) : Prop :=
  (∃ x, follow (subfolders items) DriveChild.id root r = some x ∧ Holds items x f) ∧
    ∀ s y, follow (subfolders items) DriveChild.id root s = some y → Holds items y f → ¬ Before s r

variable {items}

theorem FirstWay.unique {root f : DriveId} {r s : List ℕ} (hr : FirstWay items root f r) (hs : FirstWay items root f s) : r = s := by
  obtain ⟨⟨x, hx, hxf⟩, hr⟩ := hr
  obtain ⟨⟨y, hy, hyf⟩, hs⟩ := hs
  rcases before_or r s with h | h | h
  · exact absurd h (hs r x hx hxf)
  · exact h
  · exact absurd h (hr s y hy hyf)

/-! ## The walk -/

variable (items) in
/-- Every read succeeds; the first folder's also tells its name. -/
def Reads (read : Read) (names : DriveId → Text) : Prop :=
  ∀ id key named, ∃ name, read id key named = .ok (name, childrenOf items id) ∧ (named = true → name = some (names id))

variable (items) in
/-- The folders that can be reached are finitely many, and stay within the limit together. -/
def WithinLimit (root : DriveId) : Prop :=
  ∃ all : Finset DriveId, (∀ x, x ∈ all ↔ Reachable items root x) ∧ ∑ x ∈ all, (childrenOf items x).length ≤ maxItems

variable {root : DriveId} {top : Path}

variable (items root top) in
/-- The path a route goes along. -/
def routePath (r : List ℕ) : Path := pathOf top ((edges (subfolders items) DriveChild.id root r).getD [])

theorem Leads.routePath_eq {r : List ℕ} {es : List DriveChild} {x : DriveId} (h : Leads items root r es x) :
    routePath items root top r = pathOf top es := by
  unfold routePath
  rw [h.1]
  rfl

theorem routePath_snoc {r : List ℕ} {x : DriveId} (h : follow (subfolders items) DriveChild.id root r = some x) {i : ℕ}
    {e : DriveChild} (he : (subfolders items x)[i]? = some e) :
    routePath items root top (r ++ [i]) = routePath items root top r ++ [componentOf e.name e.id] := by
  obtain ⟨es, hes⟩ := exists_edges h
  unfold routePath
  rw [edges_snoc hes h he, hes]
  show top ++ List.map _ (es ++ [e]) = top ++ List.map _ es ++ _
  rw [List.map_append, List.append_assoc]
  rfl

variable (items root top) in
/-- What waits in the walk is what a route leads to, under the route's path. -/
structure Awaits (w : Waiting) (e : List ℕ × DriveId) : Prop where
  id : w.id = e.2
  path : w.path.getD top = routePath items root top e.1
  first : w.path = none → w.id = root

variable (items root top) in
/-- What `drive_list` has kept of the folders that were visited. -/
structure Kept (w : Walk) (visits queue : List (List ℕ × DriveId)) : Prop where
  breadth : Breadth (subfolders items) DriveChild.id root visits queue
  waits : List.Forall₂ (Awaits items root top) w.queue queue
  listed : ∀ x, x ∈ w.listed ↔ x ∈ visits.map Prod.snd
  reads : w.reads = visits.map Prod.snd
  filed : Filed w (visits.flatMap fun v => tasksOf false (routePath items root top v.1) (childrenOf items v.2))
  shortcuts : w.shortcuts = visits.flatMap fun v => tasksOf true (routePath items root top v.1) (childrenOf items v.2)
  read : w.read = (visits.map fun v => (childrenOf items v.2).length).sum

theorem awaits_pushed {r : List ℕ} {x : DriveId} (h : follow (subfolders items) DriveChild.id root r = some x) :
    List.Forall₂ (Awaits items root top) (waitingOf (routePath items root top r) (childrenOf items x))
      (pushed (subfolders items) DriveChild.id r x) := by
  unfold waitingOf pushed
  rw [List.forall₂_iff_get]
  refine ⟨by rw [List.length_map, List.length_mapIdx]; rfl, ?_⟩
  intro i hi hi'
  rw [List.length_mapIdx] at hi'
  rw [List.get_eq_getElem, List.get_eq_getElem, List.getElem_map, List.getElem_mapIdx]
  refine ⟨rfl, ?_, ?_⟩
  · exact (routePath_snoc h (List.getElem?_eq_getElem hi')).symm
  · intro hnone
    cases hnone

/-- What was read stays within the limit. -/
theorem WithinLimit.le (h : WithinLimit items root) {visits : List (List ℕ × DriveId)} (hnodup : (visits.map Prod.snd).Nodup)
    (hreach : ∀ v ∈ visits, Reachable items root v.2) : (visits.map fun v => (childrenOf items v.2).length).sum ≤ maxItems := by
  obtain ⟨all, hall, hsum⟩ := h
  have hmap : (visits.map fun v => (childrenOf items v.2).length) = (visits.map Prod.snd).map fun x => (childrenOf items x).length := by
    rw [List.map_map]
    rfl
  rw [hmap, ← List.sum_toFinset _ hnodup]
  refine (Finset.sum_le_sum_of_subset ?_).trans hsum
  intro x hx
  obtain ⟨v, hv, rfl⟩ := List.mem_map.mp (List.mem_toFinset.mp hx)
  exact (hall v.2).mpr (hreach v hv)

/-! ## The loop -/

theorem driveLoop_nil {read : Read} {w : Walk} (h : w.queue = []) : driveLoop read w = .ok w := by
  rw [driveLoop]
  split
  · rfl
  · rename_i hqueue
    rw [h] at hqueue
    cases hqueue

theorem driveLoop_skip {read : Read} {w : Walk} {id : DriveId} {key : Option Text} {path : Option Path} {queue : List Waiting}
    (h : w.queue = ⟨id, key, path⟩ :: queue) (hid : id ∈ w.listed) : driveLoop read w = driveLoop read { w with queue } := by
  rw [driveLoop]
  split
  · rename_i hqueue
    rw [h] at hqueue
    cases hqueue
  · rename_i hqueue
    rw [h] at hqueue
    cases hqueue
    rw [if_pos hid]

theorem driveLoop_read {read : Read} {w w' : Walk} {id : DriveId} {key : Option Text} {path : Option Path} {queue : List Waiting}
    {name : Option Text} {children : List DriveChild} {folder : Path} (h : w.queue = ⟨id, key, path⟩ :: queue) (hid : id ∉ w.listed)
    (hread : read id key path.isNone = .ok (name, children)) (hfolder : folderPath path name id = .ok folder)
    (hmany : ¬ w.read + children.length > maxItems)
    (htake : takeChildren folder children
      { w with queue, listed := id :: w.listed, reads := w.reads ++ [id], read := w.read + children.length } = .ok w') :
    driveLoop read w = driveLoop read w' := by
  conv_lhs => rw [driveLoop]
  split
  · rename_i hqueue
    rw [h] at hqueue
    cases hqueue
  · rename_i hqueue
    rw [h] at hqueue
    cases hqueue
    rw [if_neg hid]
    simp only [hread, hfolder]
    rw [dif_neg hmany]
    split
    · rename_i herror
      rw [htake] at herror
      cases herror
    · rename_i hok
      rw [htake] at hok
      cases hok
      rfl

variable {read : Read} {names : DriveId → Text}

namespace Kept

variable {w : Walk} {visits : List (List ℕ × DriveId)} {e : List ℕ × DriveId} {rest : List (List ℕ × DriveId)} {waiting : Waiting}
  {queue : List Waiting}

theorem start (key : Option Text) :
    Kept items root top
      { queue := [⟨root, key, none⟩], listed := [], files := [], tasks := [], shortcuts := [], unread := [], leftOut := 0, read := 0
        reads := [] } [] [([], root)] where
  breadth := Breadth.start
  waits := by
    refine List.Forall₂.cons ⟨rfl, ?_, fun _ => rfl⟩ List.Forall₂.nil
    exact (List.append_nil top).symm
  listed := by simp
  reads := rfl
  filed := ⟨rfl, by simp⟩
  shortcuts := rfl
  read := rfl

theorem skip (h : Kept items root top w visits (e :: rest)) (hqueue : w.queue = waiting :: queue) (hid : waiting.id ∈ w.listed) :
    Kept items root top { w with queue } visits rest := by
  have hwaits := h.waits
  rw [hqueue] at hwaits
  cases hwaits with
  | cons hawaits hwaits =>
    have hvisited : e.2 ∈ visits.map Prod.snd := (h.listed e.2).mp (hawaits.id ▸ hid)
    exact ⟨h.breadth.skip hvisited, hwaits, h.listed, h.reads, h.filed.congr rfl rfl, h.shortcuts, h.read⟩

theorem folderPath_eq (htop : top = [componentOf (names root) root]) (h : Awaits items root top waiting e) {name : Option Text}
    (hname : waiting.path.isNone = true → name = some (names waiting.id)) :
    folderPath waiting.path name waiting.id = .ok (routePath items root top e.1) := by
  have hpath := h.path
  cases hnone : waiting.path with
  | some path =>
    rw [hnone] at hpath
    exact congrArg Except.ok hpath
  | none =>
    rw [hnone] at hpath
    rw [hname (by rw [hnone]; rfl), h.first hnone]
    unfold folderPath
    rw [component_eq, ← hpath]
    show Except.ok [componentOf (names root) root] = Except.ok top
    rw [htop]

theorem visit (h : Kept items root top w visits (e :: rest)) (hqueue : w.queue = waiting :: queue) (hid : waiting.id ∉ w.listed)
    {w' : Walk}
    (htook : Took (routePath items root top e.1) (childrenOf items e.2)
      { w with queue, listed := e.2 :: w.listed, reads := w.reads ++ [e.2], read := w.read + (childrenOf items e.2).length } w') :
    Kept items root top w' (visits ++ [e]) (rest ++ pushed (subfolders items) DriveChild.id e.1 e.2) := by
  have hwaits := h.waits
  rw [hqueue] at hwaits
  cases hwaits with
  | cons hawaits hwaits =>
    have hnew : e.2 ∉ visits.map Prod.snd := fun hvisited => hid (hawaits.id ▸ (h.listed e.2).mpr hvisited)
    have hfollow : follow (subfolders items) DriveChild.id root e.1 = some e.2 := h.breadth.follows e (by simp)
    refine ⟨h.breadth.visit hnew, ?_, ?_, ?_, ?_, ?_, ?_⟩
    · rw [htook.queue]
      exact List.rel_append hwaits (awaits_pushed hfollow)
    · intro x
      rw [htook.listed, List.map_append, List.mem_append, ← h.listed x, List.map_singleton, List.mem_singleton, List.mem_cons, or_comm]
    · rw [htook.reads, List.map_append, List.map_singleton, ← h.reads]
    · rw [List.flatMap_append, List.flatMap_singleton]
      exact htook.filed _ (h.filed.congr rfl rfl)
    · rw [htook.shortcuts, List.flatMap_append, List.flatMap_singleton, ← h.shortcuts]
    · rw [htook.read, List.map_append, List.sum_append, ← h.read, List.map_singleton, List.sum_singleton]

/-- The walk ends, with nothing waiting. -/
theorem loop (hreads : Reads items read names) (hlimit : WithinLimit items root) (htop : top = [componentOf (names root) root])
    {waits : List (List ℕ × DriveId)} (h : Kept items root top w visits waits) :
    ∃ w' visits', driveLoop read w = .ok w' ∧ Kept items root top w' visits' [] := by
  induction hm : w.queue.length + (maxItems - w.read) using Nat.strong_induction_on generalizing w visits waits with
  | _ m ih =>
    subst hm
    cases hqueue : w.queue with
    | nil =>
      have hwaits := h.waits
      rw [hqueue] at hwaits
      cases hwaits
      exact ⟨w, visits, driveLoop_nil hqueue, h⟩
    | cons waiting queue =>
      obtain ⟨e, rest, hawaits, -, rfl⟩ := List.forall₂_cons_left_iff.mp (hqueue ▸ h.waits)
      by_cases hid : waiting.id ∈ w.listed
      · rw [driveLoop_skip hqueue hid]
        refine ih _ ?_ (h.skip hqueue hid) rfl
        rw [hqueue, List.length_cons]
        show queue.length + (maxItems - w.read) < _
        omega
      · obtain ⟨name, hread, hname⟩ := hreads waiting.id waiting.resourceKey waiting.path.isNone
        have hfolder := folderPath_eq htop hawaits hname
        obtain ⟨w', htake, htook⟩ := takeChildren_took (routePath items root top e.1) (childrenOf items waiting.id)
          { w with
            queue, listed := waiting.id :: w.listed, reads := w.reads ++ [waiting.id]
            read := w.read + (childrenOf items waiting.id).length }
        rw [hawaits.id] at htook
        have hkept := h.visit hqueue hid htook
        have hwithin := hlimit.le hkept.breadth.nodup fun v hv => ⟨v.1, hkept.breadth.follows v (List.mem_append_left _ hv)⟩
        rw [← hkept.read, htook.read] at hwithin
        have hmany : ¬ w.read + (childrenOf items waiting.id).length > maxItems := by
          rw [hawaits.id]
          exact not_lt.mpr hwithin
        rw [driveLoop_read hqueue hid hread hfolder hmany htake]
        obtain ⟨hlen, hreadw⟩ := takeChildren_queue htake
        refine ih _ ?_ hkept rfl
        simp only at hlen hreadw
        rw [hqueue, List.length_cons]
        omega

end Kept

/-! ## The listing -/

variable (items root) in
/-- Each folder that can be reached is read once, each file that can be reached has one task. -/
structure ListedOnce (l : Listing) : Prop where
  folders_once : l.reads.Nodup
  folders : ∀ x, x ∈ l.reads ↔ Reachable items root x
  files_once : (l.tasks.map Prod.fst).Nodup
  files : ∀ f, f ∈ l.tasks.map Prod.fst ↔ ∃ x, Reachable items root x ∧ Lists items x f

variable (items root top) in
/-- A file that real folders alone lead to is saved under such folders. -/
def InPlace (l : Listing) : Prop :=
  ∀ f task, (f, task) ∈ l.tasks → (places items root top f).Nonempty → ∃ p ∈ places items root top f, task.folder = some p

theorem mem_map_tasksOf {shortcut : Bool} {folder : Path} {children : List DriveChild} {f : DriveId} :
    f ∈ (tasksOf shortcut folder children).map Prod.fst ↔ ∃ c ∈ children, c.isFile = true ∧ c.shortcut = shortcut ∧ c.id = f := by
  constructor
  · intro h
    obtain ⟨⟨f, task⟩, hmem, rfl⟩ := List.mem_map.mp h
    obtain ⟨c, hc, hfile, hshortcut, hid, -⟩ := mem_tasksOf.mp hmem
    exact ⟨c, hc, hfile, hshortcut, hid⟩
  · rintro ⟨c, hc, hfile, hshortcut, hid⟩
    exact List.mem_map_of_mem (mem_tasksOf.mpr ⟨c, hc, hfile, hshortcut, hid, rfl⟩)

theorem mem_map_visits {shortcut : Bool} {visits : List (List ℕ × DriveId)} {f : DriveId} :
    f ∈ (visits.flatMap fun v => tasksOf shortcut (routePath items root top v.1) (childrenOf items v.2)).map Prod.fst ↔
      ∃ v ∈ visits, ∃ c ∈ childrenOf items v.2, c.isFile = true ∧ c.shortcut = shortcut ∧ c.id = f := by
  rw [List.map_flatMap, List.mem_flatMap]
  simp only [mem_map_tasksOf]

/-- The first of the visits to a folder that holds `f` comes by the first way to one. -/
theorem firstWay_of_visits {visits before after : List (List ℕ × DriveId)} {v : List ℕ × DriveId} {f : DriveId}
    (h : Breadth (subfolders items) DriveChild.id root visits []) (hsplit : visits = before ++ v :: after) (hv : Holds items v.2 f)
    (hbefore : ∀ u ∈ before, ¬ Holds items u.2 f) : FirstWay items root f v.1 := by
  subst hsplit
  have hsorted := h.sorted
  rw [List.append_nil] at hsorted
  refine ⟨⟨v.2, h.follows v (by simp), hv⟩, ?_⟩
  intro s y hs hy hlt
  obtain ⟨u, hu, rfl⟩ := List.mem_map.mp (h.mem_visits.mpr ⟨s, hs⟩)
  have hleast := (h.least u hu).2 s hs
  rcases List.mem_append.mp hu with hu | hu
  · exact hbefore u hu hy
  · rcases List.mem_cons.mp hu with rfl | hu
    · exact hleast hlt
    · have hlater : Before v.1 u.1 := (List.pairwise_cons.mp (List.pairwise_append.mp hsorted).2.1).1 u hu
      exact hleast (hlt.trans hlater)

/-- The first of the visits to a folder that holds `f`. -/
theorem exists_first_visit {visits : List (List ℕ × DriveId)} {f : DriveId} (h : ∃ v ∈ visits, Holds items v.2 f) :
    ∃ before v after, visits = before ++ v :: after ∧ Holds items v.2 f ∧ ∀ u ∈ before, ¬ Holds items u.2 f := by
  classical
  obtain ⟨u, hu, huf⟩ := h
  have hsome : (visits.find? fun v => decide (Holds items v.2 f)).isSome := List.find?_isSome.mpr ⟨u, hu, decide_eq_true huf⟩
  obtain ⟨v, hv⟩ := Option.isSome_iff_exists.mp hsome
  obtain ⟨hvf, before, after, hsplit, hbefore⟩ := List.find?_eq_some_iff_append.mp hv
  refine ⟨before, v, after, hsplit, of_decide_eq_true hvf, ?_⟩
  intro u hu
  simpa using hbefore u hu

/-- The listing ends. A file that a folder holds is saved where the first way to one leads. -/
theorem driveList_listed (hreads : Reads items read names) (hlimit : WithinLimit items root) (key : Option Text) :
    ∃ l, driveList read root key = .ok l ∧ ListedOnce items root l ∧
      ∀ f task, (f, task) ∈ l.tasks → (∃ x, Reachable items root x ∧ Holds items x f) →
        ∃ r, FirstWay items root f r ∧ task.folder = some (routePath items root [componentOf (names root) root] r) := by
  obtain ⟨w, visits, hloop, hkept⟩ := Kept.loop hreads hlimit rfl (Kept.start key)
  have hvisited : ∀ x, x ∈ visits.map Prod.snd ↔ Reachable items root x := fun x => hkept.breadth.mem_visits
  have hfiled := hkept.filed.addTasks w.shortcuts
  rw [hkept.shortcuts] at hfiled
  refine ⟨_, by rw [driveList, hloop]; rfl, ⟨?_, ?_, ?_, ?_⟩, ?_⟩
  · show w.reads.Nodup
    rw [hkept.reads]
    exact hkept.breadth.nodup
  · intro x
    show x ∈ w.reads ↔ _
    rw [hkept.reads]
    exact hvisited x
  all_goals simp only [hkept.shortcuts, hfiled.tasks]
  · exact (keepFirst_nodup [] _).1
  · intro f
    rw [mem_map_keepFirst List.not_mem_nil, List.map_append, List.mem_append, mem_map_visits, mem_map_visits]
    constructor
    · rintro (⟨v, hv, c, hc, hfile, -, hid⟩ | ⟨v, hv, c, hc, hfile, -, hid⟩)
      · exact ⟨v.2, (hvisited v.2).mp (List.mem_map_of_mem hv), c, hc, hfile, hid⟩
      · exact ⟨v.2, (hvisited v.2).mp (List.mem_map_of_mem hv), c, hc, hfile, hid⟩
    · rintro ⟨x, hx, c, hc, hfile, hid⟩
      obtain ⟨v, hv, rfl⟩ := List.mem_map.mp ((hvisited x).mpr hx)
      cases hshortcut : c.shortcut with
      | false => exact .inl ⟨v, hv, c, hc, hfile, hshortcut, hid⟩
      | true => exact .inr ⟨v, hv, c, hc, hfile, hshortcut, hid⟩
  · rintro f task htask ⟨x, hx, hxf⟩
    obtain ⟨u, hu, rfl⟩ := List.mem_map.mp ((hvisited x).mpr hx)
    obtain ⟨before, v, after, hsplit, ⟨c, hc, hfile, hshortcut, hid⟩, hbefore⟩ := exists_first_visit ⟨u, hu, hxf⟩
    refine ⟨v.1, firstWay_of_visits hkept.breadth hsplit ⟨c, hc, hfile, hshortcut, hid⟩ hbefore, ?_⟩
    -- the tasks before the visit have none for the file, those of the visit have one
    have hnone : f ∉ (before.flatMap fun v => tasksOf false (routePath items root [componentOf (names root) root] v.1)
        (childrenOf items v.2)).map Prod.fst := by
      intro hmem
      obtain ⟨u, hu, huf⟩ := mem_map_visits.mp hmem
      exact hbefore u hu huf
    rw [hsplit, List.flatMap_append, List.flatMap_cons, ← List.append_assoc, List.append_assoc] at htask
    have hmem := mem_of_mem_keepFirst htask hnone (mem_map_tasksOf.mpr ⟨c, hc, hfile, hshortcut, hid⟩)
    obtain ⟨d, -, -, -, -, rfl⟩ := mem_tasksOf.mp hmem
    exact fileTask_folder d _

/-- Every file that real folders lead to is saved under such folders just when the first way to a
folder that holds it has the path of such a one. -/
theorem listed_in_place_iff (items : DriveId → List DriveItem) (read : Read) (names : DriveId → Text) (root : DriveId)
    (key : Option Text) (hreads : Reads items read names) (hlimit : WithinLimit items root) :
    (∃ l, driveList read root key = .ok l ∧ ListedOnce items root l ∧ InPlace items root [componentOf (names root) root] l) ↔
      ∀ f, (places items root [componentOf (names root) root] f).Nonempty → ∀ r, FirstWay items root f r →
        routePath items root [componentOf (names root) root] r ∈ places items root [componentOf (names root) root] f := by
  obtain ⟨l, hl, hlisted, hfirst⟩ := driveList_listed hreads hlimit key
  have hheld : ∀ f, (places items root [componentOf (names root) root] f).Nonempty → ∃ x, Reachable items root x ∧ Holds items x f := by
    rintro f ⟨-, r, es, x, hleads, -, hf, -⟩
    exact ⟨x, ⟨r, hleads.2⟩, hf⟩
  constructor
  · rintro ⟨l', hl', -, hplace⟩ f hf r hr
    rw [hl] at hl'
    cases hl'
    obtain ⟨x, hx, c, hc, hfile, hshortcut, hid⟩ := hheld f hf
    obtain ⟨⟨f, task⟩, htask, rfl⟩ := List.mem_map.mp ((hlisted.files f).mpr ⟨x, hx, c, hc, hfile, hid⟩)
    obtain ⟨p, hp, hfolder⟩ := hplace f task htask hf
    obtain ⟨s, hs, hfolder'⟩ := hfirst f task htask (hheld f hf)
    rw [hfolder, Option.some.injEq] at hfolder'
    rw [hr.unique hs, ← hfolder']
    exact hp
  · intro hway
    refine ⟨l, hl, hlisted, ?_⟩
    intro f task htask hf
    obtain ⟨r, hr, hfolder⟩ := hfirst f task htask (hheld f hf)
    exact ⟨_, hway f hf r hr, hfolder⟩

/-! ## A shortcut that comes first -/

/-- A listing that the API gives in whole. -/
def listedBy (items : DriveId → List DriveItem) (name : Text) : Read := fun id _ named =>
  .ok (if named then some name else none, childrenOf items id)

theorem listedBy_reads (items : DriveId → List DriveItem) (name : Text) : Reads items (listedBy items name) fun _ => name := by
  intro id key named
  exact ⟨_, rfl, fun hnamed => if_pos hnamed⟩

def plainItem (id : DriveId) (name mimeType : Text) : DriveItem :=
  { id, name, mimeType, size := none, md5Checksum := none, resourceKey := none, shortcutDetails := none }

def folderType : Text := "application/vnd.google-apps.folder".toList

def shortcutItem (id : DriveId) (name : Text) (target : DriveId) : DriveItem :=
  { plainItem id name "application/vnd.google-apps.shortcut".toList with shortcutDetails := some ⟨target, folderType, none⟩ }

def outerId : DriveId := ⟨['o'], by decide⟩
def middleId : DriveId := ⟨['m'], by decide⟩
def innerId : DriveId := ⟨['i'], by decide⟩
def fileId : DriveId := ⟨['f'], by decide⟩
def shortcutId : DriveId := ⟨['s'], by decide⟩

/-- `inner` is in `middle`, which is in `outer`; so is a shortcut to `inner`, before it. -/
def shortcutFirst (x : DriveId) : List DriveItem :=
  if x = outerId then
    [shortcutItem shortcutId "short".toList innerId, plainItem middleId "middle".toList folderType]
  else if x = middleId then [plainItem innerId "inner".toList folderType]
  else if x = innerId then [plainItem fileId "file".toList "text/plain".toList]
  else []

theorem shortcutFirst_withinLimit : WithinLimit shortcutFirst outerId := by
  refine ⟨{outerId, middleId, innerId}, ?_, by decide⟩
  intro x
  constructor
  · intro hx
    simp only [Finset.mem_insert, Finset.mem_singleton] at hx
    rcases hx with rfl | rfl | rfl
    · exact ⟨[], rfl⟩
    · exact ⟨[1], by decide⟩
    · exact ⟨[0], by decide⟩
  · rintro ⟨r, hr⟩
    exact follow_closed (p := fun x => x ∈ ({outerId, middleId, innerId} : Finset DriveId)) (by decide) (by decide) hr

/-- The first way to the file is by the shortcut. -/
theorem shortcutFirst_way : FirstWay shortcutFirst outerId fileId [0] := by
  refine ⟨⟨innerId, by decide, by unfold Holds; decide⟩, ?_⟩
  intro s y hs hy hlt
  rcases List.shortlex_def.mp hlt with hlen | ⟨hlen, hlex⟩
  · obtain rfl : s = [] := List.length_eq_zero_iff.mp (Nat.lt_one_iff.mp hlen)
    cases hs
    revert hy
    unfold Holds
    decide
  · obtain ⟨n, rfl⟩ := List.length_eq_one_iff.mp hlen
    cases hlex with
    | rel h => exact Nat.not_lt_zero n h
    | cons h => cases h

theorem saved_by_shortcut :
    Reads shortcutFirst (listedBy shortcutFirst "outer".toList) (fun _ => "outer".toList) ∧ WithinLimit shortcutFirst outerId ∧
      ¬ ∃ l, driveList (listedBy shortcutFirst "outer".toList) outerId none = .ok l ∧ ListedOnce shortcutFirst outerId l ∧
        InPlace shortcutFirst outerId [componentOf "outer".toList outerId] l := by
  have hreads := listedBy_reads shortcutFirst "outer".toList
  refine ⟨hreads, shortcutFirst_withinLimit, ?_⟩
  rintro ⟨l, hl, hlisted, hplace⟩
  obtain ⟨l', hl', -, hfirst⟩ := driveList_listed hreads shortcutFirst_withinLimit none
  rw [hl] at hl'
  cases hl'
  have hinner : Reachable shortcutFirst outerId innerId := ⟨[0], by decide⟩
  have hholds : Holds shortcutFirst innerId fileId := by
    unfold Holds
    decide
  have hfile : fileId ∈ l.tasks.map Prod.fst := (hlisted.files fileId).mpr ⟨innerId, hinner, by unfold Lists; decide⟩
  obtain ⟨⟨f, task⟩, htask, hf⟩ := List.mem_map.mp hfile
  cases hf
  obtain ⟨r, hr, hsaved⟩ := hfirst fileId task htask ⟨innerId, hinner, hholds⟩
  cases hr.unique shortcutFirst_way
  have hreal : (places shortcutFirst outerId [componentOf "outer".toList outerId] fileId).Nonempty :=
    ⟨_, [1, 0], [DriveChild.from (plainItem middleId "middle".toList folderType),
      DriveChild.from (plainItem innerId "inner".toList folderType)], innerId, ⟨rfl, by decide⟩, by decide, hholds, rfl⟩
  obtain ⟨p, ⟨s, es, x, hleads, hes, -, rfl⟩, hfolder⟩ := hplace fileId task htask hreal
  -- a path of one name below the first folder's is that of a child of it: the shortcut
  have hpath : routePath shortcutFirst outerId [componentOf "outer".toList outerId] [0] = ["outer".toList, "short".toList] := by decide
  rw [hsaved, Option.some.injEq, hpath] at hfolder
  have hnames : es.map (fun c => componentOf c.name c.id) = ["short".toList] := (List.cons.inj hfolder).2.symm
  obtain ⟨e, es', rfl, he, hes'⟩ := List.map_eq_cons_iff.mp hnames
  have hedges := hleads.1
  cases s with
  | nil => cases hedges
  | cons i s =>
    rw [edges] at hedges
    obtain ⟨d, hd, hedges⟩ := Option.bind_eq_some_iff.mp hedges
    obtain ⟨ds, -, hds⟩ := Option.map_eq_some_iff.mp hedges
    cases hds
    have hshort : ∀ c ∈ subfolders shortcutFirst outerId, componentOf c.name c.id = "short".toList → c.shortcut = true := by decide
    have hshortcut := hshort e (List.mem_of_getElem? hd) he
    rw [hes e List.mem_cons_self] at hshortcut
    cases hshortcut

/-- One file in one folder. -/
def oneFile (x : DriveId) : List DriveItem := if x = outerId then [plainItem fileId "file".toList "text/plain".toList] else []

theorem oneFile_in_place :
    ∃ l, driveList (listedBy oneFile "outer".toList) outerId none = .ok l ∧ ListedOnce oneFile outerId l ∧
      InPlace oneFile outerId [componentOf "outer".toList outerId] l := by
  have hroute : ∀ r x, follow (subfolders oneFile) DriveChild.id outerId r = some x → r = [] ∧ x = outerId := by
    intro r x h
    cases r with
    | nil => exact ⟨rfl, (Option.some.inj h).symm⟩
    | cons i r =>
      have hnone : subfolders oneFile outerId = [] := by decide
      rw [follow, hnone] at h
      cases h
  refine (listed_in_place_iff oneFile (listedBy oneFile "outer".toList) (fun _ => "outer".toList) outerId none
    (listedBy_reads oneFile "outer".toList) ⟨{outerId}, ?_, by decide⟩).mpr ?_
  · intro x
    rw [Finset.mem_singleton]
    constructor
    · rintro rfl
      exact ⟨[], rfl⟩
    · rintro ⟨r, hr⟩
      exact (hroute r x hr).2
  · rintro f - r ⟨⟨x, hx, hf⟩, -⟩
    obtain ⟨rfl, rfl⟩ := hroute r x hx
    refine ⟨[], [], outerId, ⟨rfl, rfl⟩, ?_, hf, rfl⟩
    intro c hc
    cases hc

end

end Hyperfetch.Folders
