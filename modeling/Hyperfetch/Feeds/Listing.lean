import Hyperfetch.Feeds.Names
import Hyperfetch.Weft.Recent

/-!
# A feed's episodes listed again

feeds.rs: `feed_tasks` makes a task of each episode, newest first, and leaves out those that the
download archive has by their link or by their file in the feed. Names are numbered over the
whole feed, so an episode that was added can be given the name an older one was saved under,
and is then left out: `later_listing_iff` says when none is.
-/

namespace Hyperfetch.Feeds

open Weft

/-- A feed: each episode took some of its bytes. -/
structure Feed where
  title : Option Text
  episodes : List Episode
  /-- What tells this feed from another of the same title. -/
  source : Text
  small : episodes.length ≤ maxFeedBytes

structure Task where
  urls : List Text
  name : Option Text
  folder : Option Text
  size : Option ℕ
  fromDocument : Bool
  archive : List Text

/-- What history and the download archive record as downloaded. -/
structure Done where
  links : List Text
  files : List (Text × Text)
  archive : List Text

/-- What an archive of these lines tells. -/
def Done.ofArchive (archive : List Text) : Done := { links := [], files := [], archive }

def feedLine (url : Text) : Text := "feed ".toList ++ url

/-- The line of a file that an archive noted before it named the feed. -/
def oldFileLine (file : Text) : Text := "feed-file ".toList ++ file

def fileLine (feed file : Text) : Text := oldFileLine (feed.take 32 ++ ' ' :: file)

/-- A date's place: none is before every date. -/
def notOlder (a b : Option Date) : Bool :=
  match a, b with
  | _, none => true
  | none, some _ => false
  | some a, some b => decide (b.unix ≤ a.unix)

/-- Newest first: `sort_by_key` of the date, reversed. -/
def byDate (episodes : List Episode) : List Episode := episodes.mergeSort fun a b => notOlder a.date b.date

def feedFolder (title : Option Text) : Option Text := title.bind cleanComponent

section

variable (L : Links) (T : CaseTables)

/-- "folder/name" of the file a task saves to, in lower case. -/
def fileOf (folder name : Option Text) : Option Text :=
  match folder, name with
  | some folder, some name => some (lowercase T folder ++ '/' :: lowercase T name)
  | _, _ => none

/-- The download archive's lines of an episode of the feed `source`. -/
def episodeArchive (source : Text) (urls : List Text) (folder name : Option Text) : List Text :=
  ((urls.filter fun url => L.redact url = url).map feedLine) ++ ((fileOf T folder name).map (fileLine (L.digest source))).toList

/-- Whether what `task` downloads was downloaded before. -/
def Done.has (done : Done) (task : Task) : Bool :=
  (task.urls.any fun url => done.links.contains (L.redact url)) ||
    (match task.folder, task.name with
      | some folder, some name => done.files.contains (lowercase T folder, lowercase T name)
      | _, _ => false) ||
    (task.archive.any fun line => done.archive.contains line) ||
    ((fileOf T task.folder task.name).any fun file => done.archive.contains (oldFileLine file))

/-- The task of an episode that is saved as `name`. -/
def taskOf (folder : Option Text) (source : Text) (enclosure : Enclosure) (name : Text) : Task where
  urls := [enclosure.url]
  name := some name
  folder := folder
  size := enclosure.length
  fromDocument := true
  archive := episodeArchive L T source [enclosure.url] folder (some name)

/-- The loop of `feed_tasks`: `seen` holds the links before, `taken` the names. -/
def listEpisodes (fuel : ℕ) (folder : Option Text) (source : Text) : List Episode → List Text → List Text → Except Stopped (List Task)
  | [], _, _ => .ok []
  | episode :: episodes, seen, taken =>
    match episode.enclosure.filter fun e => e.url ∉ seen with
    | none => listEpisodes fuel folder source episodes seen taken
    | some enclosure => do
      let name ← episodeName T fuel episode.title episode.date enclosure.extension (L.lastPart enclosure.url) taken
      let tasks ← listEpisodes fuel folder source episodes (enclosure.url :: seen) (lowercase T name :: taken)
      return taskOf L T folder source enclosure name :: tasks

/-- `feed_tasks`: the newest `latest`, less those that were downloaded before. -/
def feedTasks (fuel : ℕ) (feed : Feed) (latest : Option ℕ) (done : Done) : Except Stopped (List Task) := do
  let tasks ← listEpisodes L T fuel (feedFolder feed.title) feed.source (byDate feed.episodes) [] []
  let considered := match latest with
    | some n => tasks.take n
    | none => tasks
  return considered.filter fun task => !done.has L T task

end

/-! ## The names of a listing -/

/-- The episodes with a file, each with it. -/
def withFile (episodes : List Episode) : List (Episode × Enclosure) :=
  episodes.filterMap fun e => e.enclosure.map fun enclosure => (e, enclosure)

def linksOf (episodes : List Episode) : List Text := (withFile episodes).map fun p => p.2.url

/-- Those that are listed: newest first, the first of each link. -/
def listed (episodes : List Episode) : List (Episode × Enclosure) :=
  keepFirst (fun p => p.2.url) [] (withFile (byDate episodes))

section

variable (L : Links) (T : CaseTables)

def stemIn (p : Episode × Enclosure) : Text := stemOf p.1.date (episodeTitle p.1.title (fileOfLink (L.lastPart p.2.url)))

/-- The names an episode can be saved under, in lower case. -/
def nameOf (p : Episode × Enclosure) (n : ℕ) : Text := lowercase T (cleanedName (stemIn L p) p.2.extension n)

variable {L T}

theorem episodeName_eq {fuel : ℕ} {taken : List Text} (p : Episode × Enclosure) (hsmall : taken.length ≤ maxFeedBytes)
    (hfuel : taken.length + 2 ≤ fuel) :
    ∃ name n, episodeName T fuel p.1.title p.1.date p.2.extension (L.lastPart p.2.url) taken = .ok name ∧
      FirstFree (nameOf L T p) taken n ∧ lowercase T name = nameOf L T p n := by
  have hmax : maxFeedBytes = 33554432 := rfl
  have hfree : ∃ n, n ≤ taken.length + 2 ∧ FirstFree (nameOf L T p) taken n :=
    exists_first_free fun _ _ hm _ hn _ h => cleanedName_inj p.2.known hm hn h
  obtain ⟨n, hn, hfirst⟩ := hfree
  refine ⟨cleanedName (stemIn L p) p.2.extension n, n, ?_, hfirst, rfl⟩
  have hstem := byteLen_stemOf p.1.date (byteLen_episodeTitle p.1.title (fileOfLink (L.lastPart p.2.url)))
  exact chooseName_eq hstem p.2.known hfirst (by omega) le_rfl hfirst.pos (by omega)

theorem withFile_cons_none {e : Episode} (h : e.enclosure = none) (episodes : List Episode) :
    withFile (e :: episodes) = withFile episodes := by
  simp [withFile, h]

theorem withFile_cons_some {e : Episode} {enclosure : Enclosure} (h : e.enclosure = some enclosure) (episodes : List Episode) :
    withFile (e :: episodes) = (e, enclosure) :: withFile episodes := by
  simp [withFile, h]

theorem length_withFile_le (episodes : List Episode) : (withFile episodes).length ≤ episodes.length := List.length_filterMap_le _ _

/-- The loop lists each link once, under the names that are free in turn. -/
theorem listEpisodes_eq {fuel : ℕ} (folder : Option Text) (source : Text) (episodes : List Episode) (seen taken : List Text)
    (hsmall : taken.length + episodes.length ≤ maxFeedBytes) (hfuel : taken.length + episodes.length + 2 ≤ fuel) :
    ∃ names : List Text, listEpisodes L T fuel folder source episodes seen taken =
        .ok (List.zipWith (fun p name => taskOf L T folder source p.2 name) (keepFirst (fun p => p.2.url) seen (withFile episodes)) names) ∧
      Numbered (nameOf L T) taken (keepFirst (fun p => p.2.url) seen (withFile episodes)) (names.map (lowercase T)) := by
  induction episodes generalizing seen taken with
  | nil => exact ⟨[], rfl, .nil taken⟩
  | cons e episodes ih =>
    rw [List.length_cons] at hsmall hfuel
    cases hfile : e.enclosure with
    | none =>
      obtain ⟨names, hlist, hnumbered⟩ := ih seen taken (by omega) (by omega)
      rw [withFile_cons_none hfile]
      refine ⟨names, ?_, hnumbered⟩
      show (match e.enclosure.filter _ with | none => _ | some _ => _) = _
      rw [hfile]
      exact hlist
    | some enclosure =>
      rw [withFile_cons_some hfile, keepFirst]
      by_cases hseen : enclosure.url ∈ seen
      · obtain ⟨names, hlist, hnumbered⟩ := ih seen taken (by omega) (by omega)
        rw [if_pos hseen]
        refine ⟨names, ?_, hnumbered⟩
        have hnone : (some enclosure).filter (fun e => decide (e.url ∉ seen)) = none := by simp [Option.filter, hseen]
        show (match e.enclosure.filter _ with | none => _ | some _ => _) = _
        rw [hfile, hnone]
        exact hlist
      · obtain ⟨name, n, hname, hfirst, hlower⟩ := episodeName_eq (L := L) (T := T) (e, enclosure) (by omega) (show taken.length + 2 ≤ fuel by omega)
        obtain ⟨names, hlist, hnumbered⟩ := ih (enclosure.url :: seen) (lowercase T name :: taken)
          (by rw [List.length_cons]; omega) (by rw [List.length_cons]; omega)
        rw [if_neg hseen]
        refine ⟨name :: names, ?_, ?_⟩
        · have hsome : (some enclosure).filter (fun e => decide (e.url ∉ seen)) = some enclosure := by simp [Option.filter, hseen]
          show (match e.enclosure.filter _ with | none => _ | some _ => _) = _
          rw [hfile, hsome]
          show (episodeName T fuel e.title e.date enclosure.extension (L.lastPart enclosure.url) taken >>= _) = _
          rw [hname]
          show (listEpisodes L T fuel folder source episodes (enclosure.url :: seen) (lowercase T name :: taken) >>= _) = _
          rw [hlist]
          rfl
        · rw [hlower] at hnumbered
          rw [List.map_cons, hlower]
          exact .cons hfirst hnumbered

/-- The tasks of a whole feed. -/
theorem feedTasks_eq {fuel : ℕ} (feed : Feed) (done : Done) (hfuel : feed.episodes.length + 2 ≤ fuel) :
    ∃ names : List Text, feedTasks L T fuel feed none done = .ok
        ((List.zipWith (fun p name => taskOf L T (feedFolder feed.title) feed.source p.2 name) (listed feed.episodes) names).filter
          fun task => !done.has L T task) ∧
      Numbered (nameOf L T) [] (listed feed.episodes) (names.map (lowercase T)) := by
  have hlength : (byDate feed.episodes).length = feed.episodes.length := List.length_mergeSort _
  have hsmall := feed.small
  obtain ⟨names, hlist, hnumbered⟩ := listEpisodes_eq (L := L) (T := T) (feedFolder feed.title) feed.source (byDate feed.episodes) [] []
    (by rw [hlength]; simpa using hsmall) (show [].length + (byDate feed.episodes).length + 2 ≤ fuel by rw [hlength]; simpa using hfuel)
  refine ⟨names, ?_, hnumbered⟩
  unfold feedTasks
  rw [hlist]
  rfl

/-! ## What the archive tells -/

theorem feedLine_ne (url file : Text) : feedLine url ≠ oldFileLine file := by
  have hlink : feedLine url = 'f' :: 'e' :: 'e' :: 'd' :: ' ' :: url := rfl
  have hfile : oldFileLine file = 'f' :: 'e' :: 'e' :: 'd' :: '-' :: ("file ".toList ++ file) := rfl
  rw [hlink, hfile]
  simp

theorem archive_taskOf {folder : Option Text} {source : Text} {enclosure : Enclosure} (h : L.redact enclosure.url = enclosure.url)
    (name : Text) : (taskOf L T folder source enclosure name).archive =
      feedLine enclosure.url :: (folder.map fun f => fileLine (L.digest source) (lowercase T f ++ '/' :: lowercase T name)).toList := by
  show episodeArchive L T source [enclosure.url] folder (some name) = _
  unfold episodeArchive
  rw [List.filter_cons_of_pos (by simpa using h)]
  cases folder with
  | none => rfl
  | some f => rfl

/-- The lines of the tasks of `items`, saved as `names`. -/
theorem mem_archive {folder : Option Text} {source : Text} {items : List (Episode × Enclosure)} {names : List Text}
    (hredact : ∀ p ∈ items, L.redact p.2.url = p.2.url) (hlength : names.length = items.length) {line : Text} :
    line ∈ (List.zipWith (fun p name => taskOf L T folder source p.2 name) items names).flatMap Task.archive ↔
      (∃ p ∈ items, line = feedLine p.2.url) ∨
        ∃ f, folder = some f ∧ ∃ name ∈ names, line = fileLine (L.digest source) (lowercase T f ++ '/' :: lowercase T name) := by
  induction items generalizing names with
  | nil =>
    obtain rfl := List.length_eq_zero_iff.mp hlength
    simp
  | cons p items ih =>
    cases names with
    | nil => cases hlength
    | cons name names =>
      rw [List.zipWith_cons_cons, List.flatMap_cons, List.mem_append, archive_taskOf (hredact p List.mem_cons_self),
        ih (fun q hq => hredact q (List.mem_cons_of_mem p hq)) (Nat.succ_inj.mp hlength)]
      cases folder with
      | none => simp
      | some f =>
        simp only [Option.map_some, Option.toList_some, List.mem_cons, List.not_mem_nil, or_false, exists_eq_or_imp, Option.some.injEq,
          exists_eq_left']
        exact or_or_or_comm

theorem slash_not_mem_lowercase {f : Text} (h : '/' ∉ f) : '/' ∉ lowercase T f := fun hmem => h (mem_marks_lowercase (by decide) hmem)

theorem slash_not_mem_feedFolder {title : Option Text} {f : Text} (h : feedFolder title = some f) : '/' ∉ f := by
  obtain ⟨name, -, hclean⟩ := Option.bind_eq_some_iff.mp h
  unfold cleanComponent at hclean
  split at hclean
  · cases hclean
  · rename_i hne
    cases hclean
    intro hmem
    exact ((sanitizeComponent_safe hne).valid '/' hmem).1 rfl

/-- A line that names a feed is no line of a file in the same folder. -/
theorem fileLine_ne {digest f a b : Text} (hdigest : '/' ∉ digest) (hf : '/' ∉ f) :
    oldFileLine (f ++ '/' :: a) ≠ fileLine digest (f ++ '/' :: b) := by
  intro h
  have heq : f ++ '/' :: a = (digest.take 32 ++ ' ' :: f) ++ '/' :: b := by
    rw [List.append_assoc]
    exact List.append_cancel_left h
  have hfront : '/' ∉ digest.take 32 ++ ' ' :: f := by
    intro hmem
    rcases List.mem_append.mp hmem with hmem | hmem
    · exact hdigest (List.mem_of_mem_take hmem)
    · rcases List.mem_cons.mp hmem with hmem | hmem
      · cases hmem
      · exact hf hmem
  have hcut : some (f, a) = some (digest.take 32 ++ ' ' :: f, b) := by
    rw [← splitOnce_eq_some.mpr ⟨rfl, hf⟩, heq]
    exact splitOnce_eq_some.mpr ⟨rfl, hfront⟩
  have hlength := congrArg List.length (Prod.mk.inj (Option.some.inj hcut)).1
  rw [List.length_append, List.length_cons] at hlength
  omega

theorem has_ofArchive (lines : List Text) (task : Task) : (Done.ofArchive lines).has L T task = true ↔
    (∃ line ∈ task.archive, line ∈ lines) ∨ ∃ file, fileOf T task.folder task.name = some file ∧ oldFileLine file ∈ lines := by
  have hlinks : (task.urls.any fun url => ([] : List Text).contains (L.redact url)) = false := by simp
  unfold Done.has Done.ofArchive
  rw [hlinks]
  cases task.folder with
  | none => simp [fileOf]
  | some folder =>
    cases task.name with
    | none => simp [fileOf]
    | some name => simp [fileOf]

/-- A task counts as downloaded by its link, or by its file if the feed has a folder. -/
theorem has_iff {title : Option Text} {source : Text} {items : List (Episode × Enclosure)} {names : List Text}
    (hredact : ∀ p ∈ items, L.redact p.2.url = p.2.url) (hlength : names.length = items.length) {enclosure : Enclosure}
    (hurl : L.redact enclosure.url = enclosure.url) (name : Text) :
    (Done.ofArchive ((List.zipWith (fun p name => taskOf L T (feedFolder title) source p.2 name) items names).flatMap Task.archive)).has L T
        (taskOf L T (feedFolder title) source enclosure name) = true ↔
      enclosure.url ∈ items.map (fun p => p.2.url) ∨ (feedFolder title ≠ none ∧ lowercase T name ∈ names.map (lowercase T)) := by
  rw [has_ofArchive]
  have hmem := fun line => @mem_archive L T (feedFolder title) source items names hredact hlength line
  show ((∃ line ∈ (taskOf L T (feedFolder title) source enclosure name).archive, _) ∨ _) ↔ _
  rw [archive_taskOf hurl]
  constructor
  · rintro (⟨line, hline, hin⟩ | ⟨file, hfile, hin⟩)
    · rcases (hmem line).mp hin with ⟨p, hp, rfl⟩ | ⟨f, hf, n, hn, rfl⟩
      · rcases List.mem_cons.mp hline with hline | hline
        · refine .inl (List.mem_map.mpr ⟨p, hp, ?_⟩)
          exact List.append_cancel_left hline
        · obtain ⟨f, -, hfile⟩ := Option.map_eq_some_iff.mp (Option.mem_toList.mp hline)
          exact absurd hfile.symm (feedLine_ne _ _)
      · rcases List.mem_cons.mp hline with hline | hline
        · exact absurd hline.symm (feedLine_ne _ _)
        · rw [hf, Option.map_some, Option.toList_some, List.mem_singleton] at hline
          have hname := List.append_cancel_left (List.append_cancel_left hline)
          refine .inr ⟨by rw [hf]; exact Option.some_ne_none f, ?_⟩
          rw [← (List.cons.inj (List.append_cancel_left (List.cons.inj hname).2)).2]
          exact List.mem_map_of_mem hn
    · -- a line of the old kind is none of those recorded
      exfalso
      cases hf : feedFolder title with
      | none =>
        rw [show (taskOf L T (feedFolder title) source enclosure name).folder = none from hf] at hfile
        cases hfile
      | some f =>
        rw [show (taskOf L T (feedFolder title) source enclosure name).folder = some f from hf] at hfile
        cases hfile
        rcases (hmem _).mp hin with ⟨p, -, heq⟩ | ⟨g, hg, n, -, heq⟩
        · exact feedLine_ne _ _ heq.symm
        · rw [hf] at hg
          cases hg
          exact fileLine_ne (L.digest_hex source) (slash_not_mem_lowercase (slash_not_mem_feedFolder hf)) heq
  · rintro (hlink | ⟨hfolder, hname⟩)
    · obtain ⟨p, hp, heq⟩ := List.mem_map.mp hlink
      refine .inl ⟨_, List.mem_cons_self, (hmem _).mpr (.inl ⟨p, hp, ?_⟩)⟩
      rw [heq]
    · obtain ⟨f, hf⟩ := Option.ne_none_iff_exists'.mp hfolder
      obtain ⟨n, hn, heq⟩ := List.mem_map.mp hname
      refine .inl ⟨fileLine (L.digest source) (lowercase T f ++ '/' :: lowercase T name), ?_, (hmem _).mpr (.inr ⟨f, hf, n, hn, ?_⟩)⟩
      · rw [hf]
        exact List.mem_cons_of_mem _ (List.mem_singleton_self _)
      · rw [heq]

/-! ## A later version -/

/-- What makes two episodes the same. -/
def Episode.same (e : Episode) : Text × Option Date × Option Text := (e.title, e.date, e.enclosure.map Enclosure.url)

/-- `later` has the episodes of `first`, and `further` ones of other links, in any order. -/
structure LaterVersion (first later : Feed) (further : List Episode) : Prop where
  title : later.title = first.title
  source : later.source = first.source
  episodes : (later.episodes.map Episode.same).Perm ((first.episodes ++ further).map Episode.same)
  links : ∀ u ∈ linksOf further, u ∉ linksOf first.episodes

variable (T) in
/-- No two tasks save to the same name, ignoring case. -/
def NamesDistinct (tasks : List Task) : Prop := (tasks.map fun t => t.name.map (lowercase T)).Nodup

variable (L T) in
/-- With the lines that the tasks of `first` record, `later` lists exactly the further episodes. -/
def FindsNew (first later : Feed) (further : List Episode) : Prop :=
  ∀ fuel, later.episodes.length + 2 ≤ fuel →
    ∃ before after, feedTasks L T fuel first none (Done.ofArchive []) = .ok before ∧ NamesDistinct T before ∧
      feedTasks L T fuel later none (Done.ofArchive (before.flatMap Task.archive)) = .ok after ∧ NamesDistinct T after ∧
      (after.flatMap Task.urls).Nodup ∧ ∀ u, u ∈ after.flatMap Task.urls ↔ u ∈ linksOf further

variable (L T) in
/-- Newest first, each episode getting the first of its names that none before it has, no further
episode gets a name that one of the first version has there. -/
def NoneReused (first later : Feed) : Prop :=
  feedFolder first.title ≠ none → ∀ old new, Numbered (nameOf L T) [] (listed first.episodes) old →
    Numbered (nameOf L T) [] (listed later.episodes) new →
      ∀ x ∈ (listed later.episodes).zip new, x.1.2.url ∉ linksOf first.episodes → x.2 ∉ old

theorem linksOf_eq (episodes : List Episode) : linksOf episodes = (episodes.map Episode.same).filterMap fun s => s.2.2 := by
  unfold linksOf withFile
  rw [List.map_filterMap, List.filterMap_map]
  congr 1
  funext e
  cases h : e.enclosure with
  | none => simp [Episode.same, h]
  | some enclosure => simp [Episode.same, h]

theorem linksOf_append (a b : List Episode) : linksOf (a ++ b) = linksOf a ++ linksOf b := by
  unfold linksOf withFile
  rw [List.filterMap_append, List.map_append]

theorem LaterVersion.mem_links {first later : Feed} {further : List Episode} (h : LaterVersion first later further) (u : Text) :
    u ∈ linksOf later.episodes ↔ u ∈ linksOf first.episodes ∨ u ∈ linksOf further := by
  rw [← List.mem_append, ← linksOf_append, linksOf_eq later.episodes, linksOf_eq (first.episodes ++ further)]
  exact (h.episodes.filterMap _).mem_iff

theorem LaterVersion.length_le {first later : Feed} {further : List Episode} (h : LaterVersion first later further) :
    first.episodes.length ≤ later.episodes.length := by
  have hlength := h.episodes.length_eq
  rw [List.length_map, List.length_map, List.length_append] at hlength
  omega

theorem mem_map_listed {episodes : List Episode} {u : Text} :
    u ∈ (listed episodes).map (fun p => p.2.url) ↔ u ∈ linksOf episodes := by
  unfold listed
  rw [mem_map_keepFirst List.not_mem_nil]
  exact ((List.mergeSort_perm episodes _).filterMap _ |>.map _).mem_iff

theorem nodup_listed (episodes : List Episode) : ((listed episodes).map fun p => p.2.url).Nodup := (keepFirst_nodup [] _).1

/-- The tasks of the items of `xs`, each with the name it is saved under. -/
theorem urls_of_tasks {folder : Option Text} {source : Text} (xs : List ((Episode × Enclosure) × Text)) :
    (xs.map fun x => taskOf L T folder source x.1.2 x.2).flatMap Task.urls = xs.map fun x => x.1.2.url := by
  induction xs with
  | nil => rfl
  | cons x xs ih => exact congrArg (x.1.2.url :: ·) ih

theorem names_of_tasks {folder : Option Text} {source : Text} (xs : List ((Episode × Enclosure) × Text)) :
    ((xs.map fun x => taskOf L T folder source x.1.2 x.2).map fun t => t.name.map (lowercase T)) =
      (xs.map fun x => lowercase T x.2).map some := by
  induction xs with
  | nil => rfl
  | cons x xs ih => exact congrArg (some (lowercase T x.2) :: ·) ih

/-- The links of what is listed, each with its name. -/
theorem map_zip_listed {episodes : List Episode} {names : List Text} (h : names.length = (listed episodes).length) :
    ((listed episodes).zip names).map (fun x => x.1.2.url) = (listed episodes).map fun p => p.2.url := by
  have hfst := congrArg (List.map fun p => p.2.url) (@List.map_fst_zip _ _ (listed episodes) names h.ge)
  rw [List.map_map] at hfst
  exact hfst

/-- A listing ends; what it lists has its links once, and names that differ. -/
theorem feedTasks_distinct {fuel : ℕ} (feed : Feed) (done : Done) (hfuel : feed.episodes.length + 2 ≤ fuel) :
    ∃ names : List Text, Numbered (nameOf L T) [] (listed feed.episodes) (names.map (lowercase T)) ∧
      ∃ tasks, feedTasks L T fuel feed none done = .ok tasks ∧ NamesDistinct T tasks ∧ (tasks.flatMap Task.urls).Nodup ∧
        tasks = (((listed feed.episodes).zip names).filter fun x =>
          !done.has L T (taskOf L T (feedFolder feed.title) feed.source x.1.2 x.2)).map
            fun x => taskOf L T (feedFolder feed.title) feed.source x.1.2 x.2 := by
  obtain ⟨names, hlist, hnumbered⟩ := feedTasks_eq (L := L) (T := T) feed done hfuel
  have hlength : names.length = (listed feed.episodes).length := by
    rw [← hnumbered.length, List.length_map]
  have hzip : List.zipWith (fun p name => taskOf L T (feedFolder feed.title) feed.source p.2 name) (listed feed.episodes) names =
      ((listed feed.episodes).zip names).map fun x => taskOf L T (feedFolder feed.title) feed.source x.1.2 x.2 := by
    rw [List.map_zip_eq_zipWith]
    rfl
  rw [hzip, List.filter_map] at hlist
  refine ⟨names, hnumbered, _, hlist, ?_, ?_, rfl⟩
  · unfold NamesDistinct
    rw [names_of_tasks]
    refine List.Nodup.map (Option.some_injective _) ?_
    have hall : (((listed feed.episodes).zip names).map fun x => lowercase T x.2).Nodup := by
      have hsnd := congrArg (List.map (lowercase T)) (@List.map_snd_zip _ _ (listed feed.episodes) names hlength.le)
      rw [List.map_map] at hsnd
      exact hsnd ▸ hnumbered.nodup
    exact hall.sublist (List.filter_sublist.map _)
  · rw [urls_of_tasks]
    have hall : (((listed feed.episodes).zip names).map fun x => x.1.2.url).Nodup := by
      rw [map_zip_listed hlength]
      exact nodup_listed feed.episodes
    exact hall.sublist (List.filter_sublist.map _)

/-- Nothing is left out of a first listing. -/
theorem not_has_empty (task : Task) : (Done.ofArchive []).has L T task = false := by
  refine Bool.eq_false_iff.mpr fun h => ?_
  rcases has_ofArchive [] task |>.mp h with ⟨line, -, hin⟩ | ⟨file, -, hin⟩
  · cases hin
  · cases hin

/-- Both listings end, and the later one lists what has neither a link nor a name of the first. -/
theorem later_listing {first later : Feed} {further : List Episode} (hlater : LaterVersion first later further)
    (hsecret : ∀ u ∈ linksOf later.episodes, L.redact u = u) {fuel : ℕ} (hfuel : later.episodes.length + 2 ≤ fuel) :
    ∃ old new : List Text, Numbered (nameOf L T) [] (listed first.episodes) (old.map (lowercase T)) ∧
      Numbered (nameOf L T) [] (listed later.episodes) (new.map (lowercase T)) ∧
      ∃ before after, feedTasks L T fuel first none (Done.ofArchive []) = .ok before ∧ NamesDistinct T before ∧
        feedTasks L T fuel later none (Done.ofArchive (before.flatMap Task.archive)) = .ok after ∧ NamesDistinct T after ∧
        (after.flatMap Task.urls).Nodup ∧
        ∀ u, u ∈ after.flatMap Task.urls ↔ ∃ x ∈ (listed later.episodes).zip new, x.1.2.url = u ∧ u ∉ linksOf first.episodes ∧
          ¬ (feedFolder first.title ≠ none ∧ lowercase T x.2 ∈ old.map (lowercase T)) := by
  have hle := hlater.length_le
  obtain ⟨old, hold, before, hbefore, hdistinct, -, heq⟩ :=
    feedTasks_distinct (L := L) (T := T) first (Done.ofArchive []) (show first.episodes.length + 2 ≤ fuel by omega)
  simp only [not_has_empty, Bool.not_false, List.filter_true] at heq
  obtain ⟨new, hnew, after, hafter, hdistinct', hnodup, heq'⟩ :=
    feedTasks_distinct (L := L) (T := T) later (Done.ofArchive (before.flatMap Task.archive)) hfuel
  refine ⟨old, new, hold, hnew, before, after, hbefore, hdistinct, hafter, hdistinct', hnodup, ?_⟩
  have hsecret' : ∀ u ∈ linksOf first.episodes, L.redact u = u := fun u hu => hsecret u ((hlater.mem_links u).mpr (.inl hu))
  have hredact : ∀ p ∈ listed first.episodes, L.redact p.2.url = p.2.url := fun p hp =>
    hsecret' _ (mem_map_listed.mp (List.mem_map_of_mem hp))
  have hlength : old.length = (listed first.episodes).length := by
    rw [← hold.length, List.length_map]
  have hzip : before = List.zipWith (fun p name => taskOf L T (feedFolder first.title) first.source p.2 name) (listed first.episodes) old := by
    rw [heq, List.map_zip_eq_zipWith]
    rfl
  intro u
  rw [heq', urls_of_tasks, List.mem_map]
  constructor
  · rintro ⟨x, hx, rfl⟩
    obtain ⟨hx, hhas⟩ := List.mem_filter.mp hx
    have hurl : L.redact x.1.2.url = x.1.2.url := hsecret _ (mem_map_listed.mp (List.mem_map_of_mem (List.of_mem_zip hx).1))
    rw [Bool.not_eq_true', hzip, hlater.title, hlater.source, Bool.eq_false_iff, ne_eq, has_iff hredact hlength hurl, not_or] at hhas
    exact ⟨x, hx, rfl, fun hlink => hhas.1 (mem_map_listed.mpr hlink), hhas.2⟩
  · rintro ⟨x, hx, rfl, hlink, hname⟩
    have hurl : L.redact x.1.2.url = x.1.2.url := hsecret _ (mem_map_listed.mp (List.mem_map_of_mem (List.of_mem_zip hx).1))
    refine ⟨x, List.mem_filter.mpr ⟨hx, ?_⟩, rfl⟩
    rw [Bool.not_eq_true', hzip, hlater.title, hlater.source, Bool.eq_false_iff, ne_eq, has_iff hredact hlength hurl, not_or]
    exact ⟨fun hin => hlink (mem_map_listed.mp hin), hname⟩

theorem FindsNew.noneReused {first later : Feed} {further : List Episode} (hfinds : FindsNew L T first later further)
    (hlater : LaterVersion first later further) (hsecret : ∀ u ∈ linksOf later.episodes, L.redact u = u) : NoneReused L T first later := by
  intro hfolder old new hold hnew x hx hlink hname
  obtain ⟨old', new', hold', hnew', before, after, hbefore, -, hafter, -, -, hmem⟩ := later_listing hlater hsecret (le_refl _)
  obtain ⟨before', after', hbefore', -, hafter', -, -, hfound⟩ := hfinds _ (le_refl _)
  rw [hbefore] at hbefore'
  cases hbefore'
  rw [hafter] at hafter'
  cases hafter'
  rw [hold.unique hold'] at hname
  rw [hnew.unique hnew', List.zip_map_right] at hx
  obtain ⟨y, hy, rfl⟩ := List.mem_map.mp hx
  -- the further episode of this link is listed, so it is not the one that reused a name
  have hlinked : y.1.2.url ∈ linksOf later.episodes := mem_map_listed.mp (List.mem_map_of_mem (List.of_mem_zip hy).1)
  have hfurther := ((hlater.mem_links _).mp hlinked).resolve_left hlink
  obtain ⟨z, hz, hurl, -, hfree⟩ := (hmem _).mp ((hfound _).mpr hfurther)
  have hlength : new'.length = (listed later.episodes).length := by
    rw [← hnew'.length, List.length_map]
  have hnodup : (((listed later.episodes).zip new').map fun x => x.1.2.url).Nodup := by
    rw [map_zip_listed hlength]
    exact nodup_listed later.episodes
  cases List.inj_on_of_nodup_map hnodup hz hy hurl
  exact hfree ⟨hfolder, hname⟩

theorem NoneReused.findsNew {first later : Feed} {further : List Episode} (hnone : NoneReused L T first later)
    (hlater : LaterVersion first later further) (hsecret : ∀ u ∈ linksOf later.episodes, L.redact u = u) :
    FindsNew L T first later further := by
  intro fuel hfuel
  obtain ⟨old, new, hold, hnew, before, after, hbefore, hdistinct, hafter, hdistinct', hnodup, hmem⟩ := later_listing hlater hsecret hfuel
  refine ⟨before, after, hbefore, hdistinct, hafter, hdistinct', hnodup, ?_⟩
  intro u
  rw [hmem u]
  constructor
  · rintro ⟨x, hx, rfl, hlink, -⟩
    have hlinked : x.1.2.url ∈ linksOf later.episodes := mem_map_listed.mp (List.mem_map_of_mem (List.of_mem_zip hx).1)
    exact ((hlater.mem_links _).mp hlinked).resolve_left hlink
  · intro hu
    have hlength : new.length = (listed later.episodes).length := by
      rw [← hnew.length, List.length_map]
    have hlisted : u ∈ ((listed later.episodes).zip new).map fun x => x.1.2.url := by
      rw [map_zip_listed hlength]
      exact mem_map_listed.mpr ((hlater.mem_links u).mpr (.inr hu))
    obtain ⟨x, hx, rfl⟩ := List.mem_map.mp hlisted
    refine ⟨x, hx, rfl, hlater.links _ hu, ?_⟩
    rintro ⟨hfolder, hname⟩
    refine hnone hfolder _ _ hold hnew (x.1, lowercase T x.2) ?_ (hlater.links _ hu) hname
    rw [List.zip_map_right]
    exact List.mem_map.mpr ⟨x, hx, rfl⟩

/-- A later listing finds exactly the further episodes just when none of them gets a name that
an episode of the first version got. -/
theorem later_listing_iff (L : Links) (T : CaseTables) (first later : Feed) (further : List Episode)
    (hlater : LaterVersion first later further) (hsecret : ∀ u ∈ linksOf later.episodes, L.redact u = u) :
    FindsNew L T first later further ↔ NoneReused L T first later :=
  ⟨fun hfinds => hfinds.noneReused hlater hsecret, fun hnone => hnone.findsNew hlater hsecret⟩

/-- Further episodes that are listed after all of the first version get other names. -/
theorem noneReused_of_older {first later : Feed} {older : List (Episode × Enclosure)}
    (h : listed later.episodes = listed first.episodes ++ older) : NoneReused L T first later := by
  intro hfolder old new hold hnew x hx hlink hname
  rw [h] at hx hnew
  obtain ⟨before, after, rfl, hbefore, hafter⟩ := hnew.of_append
  obtain rfl := hold.unique hbefore
  rw [List.zip_append hbefore.length.symm] at hx
  rcases List.mem_append.mp hx with hx | hx
  · exact hlink (mem_map_listed.mp (List.mem_map_of_mem (List.of_mem_zip hx).1))
  · exact hafter x.2 (List.of_mem_zip hx).2 hname

/-- Episodes of one day, title and extension have the same names. -/
theorem nameOf_congr {p q : Episode × Enclosure} {d e : Date} (hp : p.1.date = some d) (hq : q.1.date = some e)
    (hday : d.year = e.year ∧ d.month = e.month ∧ d.day = e.day) (htitle : p.1.title = q.1.title) (hsome : shorten q.1.title ≠ [])
    (hext : p.2.extension = q.2.extension) (n : ℕ) : nameOf L T p n = nameOf L T q n := by
  have hnamed : ∀ file, episodeTitle q.1.title file = shorten q.1.title := by
    intro file
    unfold episodeTitle
    rw [List.map_cons, List.find?_cons_of_pos (by simpa using hsome)]
    rfl
  unfold nameOf stemIn
  rw [hp, hq, htitle, hnamed, hnamed, hext]
  simp only [stemOf, hday.1, hday.2.1, hday.2.2]

end

/-! ## An episode of the same day and title -/

/-- Links without secrets, and a digest that is the same for all. -/
def plainLinks : Links where
  redact := id
  lastPart url := (rsplitOnce '/' url).map Prod.snd
  digest _ := List.replicate 64 '0'
  digest_hex _ := by decide

def newsFile (url : Text) : Enclosure := ⟨url, "mp3".toList, none, by decide⟩

def newsDate (unix : ℤ) : Date := ⟨2026, 6, 1, unix, by decide, by decide, by decide⟩

def newsEpisode (unix : ℤ) (url : Text) : Episode := ⟨"News".toList, some (newsDate unix), some (newsFile url)⟩

theorem nameOf_news (L : Links) (T : CaseTables) (u v : ℤ) (a b : Text) (n : ℕ) :
    nameOf L T (newsEpisode u a, newsFile a) n = nameOf L T (newsEpisode v b, newsFile b) n :=
  nameOf_congr (p := (newsEpisode u a, newsFile a)) (q := (newsEpisode v b, newsFile b)) (d := newsDate u) (e := newsDate v)
    rfl rfl ⟨rfl, rfl, rfl⟩ rfl (show shorten "News".toList ≠ [] by decide) rfl n

def morningUrl : Text := "https://a.example/1.mp3".toList
def eveningUrl : Text := "https://a.example/2.mp3".toList
def morning : Episode := newsEpisode 1780293600 morningUrl
def evening : Episode := newsEpisode 1780336800 eveningUrl

def newsFeed (episodes : List Episode) (small : episodes.length ≤ maxFeedBytes) : Feed where
  title := some "Daily".toList
  episodes := episodes
  source := "https://a.example/feed".toList
  small := small

theorem newsFeed_title (a b : List Episode) (ha : a.length ≤ maxFeedBytes) (hb : b.length ≤ maxFeedBytes) :
    (newsFeed a ha).title = (newsFeed b hb).title ∧ (newsFeed a ha).source = (newsFeed b hb).source := ⟨rfl, rfl⟩

def atNoon : Feed := newsFeed [morning] (by decide)

/-- The evening's episode comes first, and gets the name that the morning's was saved under. -/
def atNight : Feed := newsFeed [evening, morning] (by decide)

/-- Sorted and with links that differ, episodes are listed as they are. -/
theorem listed_pair {a b : Episode} {x y : Enclosure} (ha : a.enclosure = some x) (hb : b.enclosure = some y)
    (hsorted : notOlder a.date b.date = true) (hlink : y.url ≠ x.url) : listed [a, b] = [(a, x), (b, y)] := by
  have hsort : byDate [a, b] = [a, b] := by
    refine List.mergeSort_of_pairwise ?_
    simpa using hsorted
  unfold listed
  rw [hsort, withFile_cons_some ha, withFile_cons_some hb]
  show keepFirst _ [] ((a, x) :: (b, y) :: []) = _
  simp [keepFirst, hlink]

theorem listed_singleton {a : Episode} {x : Enclosure} (ha : a.enclosure = some x) : listed [a] = [(a, x)] := by
  have hsort : byDate [a] = [a] := List.mergeSort_singleton a
  unfold listed
  rw [hsort, withFile_cons_some ha]
  rfl

theorem atNight_later : LaterVersion atNoon atNight [evening] where
  title := (newsFeed_title _ _ _ _).1
  source := (newsFeed_title _ _ _ _).2
  episodes := List.Perm.swap (Episode.same morning) (Episode.same evening) []
  links := by
    intro u hu
    rw [show linksOf [evening] = [eveningUrl] from rfl, List.mem_singleton] at hu
    rw [hu]
    show eveningUrl ∉ [morningUrl]
    decide

theorem listed_atNight : listed atNight.episodes = [(evening, newsFile eveningUrl), (morning, newsFile morningUrl)] :=
  listed_pair rfl rfl (by decide) (by decide)

/-- The evening's episode is not listed when the morning's was downloaded. -/
theorem evening_left_out :
    LaterVersion atNoon atNight [evening] ∧ (∀ u ∈ linksOf atNight.episodes, plainLinks.redact u = u) ∧
      ¬ FindsNew plainLinks asciiCase atNoon atNight [evening] := by
  refine ⟨atNight_later, fun _ _ => rfl, ?_⟩
  intro hfinds
  have hnone := hfinds.noneReused atNight_later fun _ _ => rfl
  obtain ⟨old, new, hold, hnew, -⟩ := later_listing (L := plainLinks) (T := asciiCase) atNight_later (fun _ _ => rfl) (le_refl _)
  have hfolder : feedFolder atNoon.title ≠ none := by
    show feedFolder (some "Daily".toList) ≠ none
    decide
  have hreused := hnone hfolder _ _ hold hnew
  rw [show atNoon.episodes = [morning] from rfl, listed_singleton (show morning.enclosure = some (newsFile morningUrl) from rfl)] at hold
  rw [listed_atNight] at hnew hreused
  -- each comes first in its listing, so it gets the first of its names
  have hfirst : ∀ p, FirstFree (nameOf plainLinks asciiCase p) [] 1 := fun p => ⟨le_rfl, List.not_mem_nil, fun m hm hlt => by omega⟩
  have hsame : nameOf plainLinks asciiCase (evening, newsFile eveningUrl) 1 = nameOf plainLinks asciiCase (morning, newsFile morningUrl) 1 :=
    nameOf_news plainLinks asciiCase _ _ _ _ 1
  generalize old.map (lowercase asciiCase) = names at hold hreused
  generalize new.map (lowercase asciiCase) = names' at hnew hreused
  cases hold with
  | cons first _ =>
    cases hnew with
    | cons first' _ =>
      obtain rfl := first.unique (hfirst _)
      obtain rfl := first'.unique (hfirst _)
      refine hreused ((evening, newsFile eveningUrl), _) List.mem_cons_self ?_ ?_
      · show eveningUrl ∉ [morningUrl]
        decide
      · rw [hsame]
        exact List.mem_cons_self

def tonight : Feed := newsFeed [evening] (by decide)

/-- An older episode is found, under another name. -/
theorem morning_found : FindsNew plainLinks asciiCase tonight atNight [morning] := by
  have hlater : LaterVersion tonight atNight [morning] := by
    refine ⟨(newsFeed_title _ _ _ _).1, (newsFeed_title _ _ _ _).2, List.Perm.refl [Episode.same evening, Episode.same morning], ?_⟩
    intro u hu
    rw [show linksOf [morning] = [morningUrl] from rfl, List.mem_singleton] at hu
    rw [hu]
    show morningUrl ∉ [eveningUrl]
    decide
  refine (later_listing_iff plainLinks asciiCase tonight atNight [morning] hlater fun _ _ => rfl).mpr ?_
  refine @noneReused_of_older _ _ _ _ [(morning, newsFile morningUrl)] ?_
  rw [listed_atNight, show tonight.episodes = [evening] from rfl,
    listed_singleton (show evening.enclosure = some (newsFile eveningUrl) from rfl)]
  rfl

end Hyperfetch.Feeds
