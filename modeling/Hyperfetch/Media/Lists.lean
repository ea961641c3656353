import Hyperfetch.Weft.Recent
import Mathlib.Data.List.DropRight
import Mathlib.Tactic

/-!
# Lists of videos

media.rs 386–516 and 643–787: what a list that was printed holds, and how the lists in it are
read a batch at a time. The answers are read as JSON, the links by the url crate.
-/

namespace Hyperfetch.Media

/-- `serde_json::Value`. -/
inductive Value where
  | null
  | bool (b : Bool)
  | number (literal : String)
  | string (s : String)
  | array (items : List Value)
  | object (fields : List (String × Value))

namespace Value

/-- `value[key]`. -/
def get (key : String) : Value → Value
  | object fields => (fields.lookup key).getD null
  | _ => null

def asStr : Value → Option String
  | string s => some s
  | _ => none

def asArray : Value → Option (List Value)
  | array items => some items
  | _ => none

def isPlaylist (v : Value) : Bool := (v.get "_type").asStr == some "playlist"

/-- What is under `entries`. -/
def entries (v : Value) : List Value := (v.get "entries").asArray.getD []

theorem sizeOf_lookup_lt {fields : List (String × Value)} {key : String} {v : Value} (h : fields.lookup key = some v) :
    sizeOf v < sizeOf fields := by
  induction fields with
  | nil => cases h
  | cons field fields ih =>
    obtain ⟨name, value⟩ := field
    rw [List.lookup_cons] at h
    split at h
    · cases h
      simp only [List.cons.sizeOf_spec, Prod.mk.sizeOf_spec]
      omega
    · have hlt := ih h
      simp only [List.cons.sizeOf_spec]
      omega

theorem sizeOf_entry_lt {v entry : Value} (h : entry ∈ v.entries) : sizeOf entry < sizeOf v := by
  cases v with
  | object fields =>
    simp only [entries, get] at h
    cases hfield : fields.lookup "entries" with
    | none => simp [hfield, asArray] at h
    | some value =>
      have hfields := sizeOf_lookup_lt hfield
      rw [hfield, Option.getD_some] at h
      cases value with
      | array items =>
        have hitem : sizeOf entry < sizeOf items := List.sizeOf_lt_of_mem h
        rw [array.sizeOf_spec] at hfields
        rw [object.sizeOf_spec]
        omega
      | _ => simp [asArray] at h
  | _ => simp [entries, get, asArray] at h

end Value

/-- What is used of the url crate, and of Unicode. -/
structure Crates where
  Url : Type
  decEq : DecidableEq Url
  parse : String → Option Url
  asStr : Url → String
  scheme : Url → String
  hostStr : Url → Option String
  pathSegments : Url → Option (List String)
  queryPairs : Url → List (String × String)
  /-- `str::to_lowercase`. -/
  toLowercase : String → String

variable (C : Crates)

instance : DecidableEq C.Url := C.decEq

/-! ## Which links are lists -/

/-- How the entries of a list are ordered, which tells its newest ones. -/
inductive ListKind where
  | uploads
  | playlist
  | ranked
deriving DecidableEq

/-- `starts_with`, `ends_with` and `contains` of texts. -/
def startsWith (text front : String) : Bool := front.toList.isPrefixOf text.toList

def endsWith (text back : String) : Bool := back.toList.isSuffixOf text.toList

def contains (text part : String) : Bool := decide (part.toList <:+: text.toList)

/-- `ingest::http_url`. -/
def httpUrl (token : String) : Option C.Url := (C.parse token).filter fun u => C.scheme u ∈ ["http", "https"]

variable {C}

/-- The host of `url` without `www.` or `m.`, and its path's segments. -/
def urlShape (url : C.Url) : String × List String :=
  let host := (((C.hostStr url).getD "").toList.rdropWhile (· == '.')).map Char.toLower
  let bare :=
    if "www.".toList.isPrefixOf host then host.drop 4
    else if "m.".toList.isPrefixOf host then host.drop 2
    else host
  (String.ofList bare, ((C.pathSegments url).getD []).filter (· ≠ ""))

/-- Whether `url` has the query parameter `name`, not empty. -/
def hasParam (url : C.Url) (name : String) : Bool := (C.queryPairs url).any fun p => p.1 == name && p.2 != ""

def param (url : C.Url) (name : String) : Option String := (C.queryPairs url).lookup name

/-- First path segments of soundcloud.com that are its own pages, not users. -/
def soundcloudPages : List String :=
  ["discover", "stream", "feed", "charts", "search", "upload", "you", "settings", "messages", "notifications", "people",
    "pages", "pro", "jobs", "imprint", "terms-of-use", "community-guidelines", "stories", "topic", "download", "go",
    "getstarted", "company", "mobile", "signin", "logout", "popular", "tags", "stations", "playlists"]

/-- Whether `host` is an artist's Bandcamp site. -/
def bandcampArtist (host : String) : Bool :=
  let site := ".bandcamp.com"
  endsWith host site && !(host.toList.take (host.length - site.length)).contains '.'

/-- A channel's page, or one of the tabs it is made of. -/
def isTab : List String → Bool
  | [] => true
  | [tab] => tab ∈ ["videos", "shorts", "streams"]
  | _ => false

/-- What kind of list `url` names. -/
def listKind (url : C.Url) : Option ListKind :=
  let (host, path) := urlShape url
  let byViews := param url "filter" == some "clips" || param url "sort" == some "views"
  let youtubeList := (host ∈ ["youtube.com", "music.youtube.com"] ∧ path ∈ [["playlist"], ["watch"]]) ∨ (host = "youtu.be" ∧ path.length = 1)
  let youtubeChannel := host == "youtube.com" &&
    match path with
    | first :: rest => (startsWith first "@" && isTab rest) ||
        (first ∈ ["channel", "c", "user"] && match rest with
          | _ :: rest => isTab rest
          | [] => false)
    | [] => false
  if youtubeList ∧ hasParam url "list" then
    let list := (param url "list").getD ""
    if startsWith list "UULP" || startsWith list "UUPS" then some .ranked
    else if startsWith list "UU" then some .uploads
    else some .playlist
  else if youtubeChannel then some .uploads
  else if host = "soundcloud.com" then
    match path with
    | [_, "sets", _] => some .playlist
    | [_, "sets", _, _] => some .playlist
    | [user] => if user ∈ soundcloudPages then none else some .uploads
    | [user, tab] =>
      if tab ∈ ["tracks", "albums", "sets", "reposts", "likes", "spotlight"] ∧ user ∉ soundcloudPages then some .uploads else none
    | _ => none
  else if host = "vimeo.com" then
    match path with
    | [first, second] =>
      if first ∈ ["showcase", "album"] then some .playlist
      else if first ∈ ["channels", "groups"] ∨ second = "videos" then some .uploads
      else none
    | _ => none
  else if host = "twitch.tv" then
    match path with
    | [first, second] =>
      if first = "collections" then some .playlist
      else if second = "clips" then some .ranked
      else if second = "videos" then some (if byViews then .ranked else .uploads)
      else none
    | _ => none
  else if bandcampArtist host then
    match path with
    | ["album", _] => some .playlist
    | [] => some .uploads
    | ["music"] => some .uploads
    | _ => none
  else none

def lists (url : C.Url) : Bool := (listKind url).isSome

/-- Whether `url` is a video link that also names the playlist it is in. -/
def videoInPlaylist (url : C.Url) : Bool :=
  let (host, path) := urlShape url
  let video :=
    if host ∈ ["youtube.com", "music.youtube.com"] ∧ path = ["watch"] then hasParam url "v"
    else path.length == 1 && host == "youtu.be"
  video && hasParam url "list"

/-! ## What a list holds -/

/-- One download a list holds. -/
structure ListEntry (C : Crates) where
  url : C.Url
  /-- Its line in the download archive, when its site and id are known. -/
  archiveId : Option String

/-- What tells it from the other entries of a list. -/
def ListEntry.key (e : ListEntry C) : String := e.archiveId.getD (C.asStr e.url)

/-- An entry of a list that was printed. -/
inductive Listed (C : Crates) where
  | entry (e : ListEntry C)
  | nested (url : C.Url)

/-- The line of the download archive for what was found or listed. -/
def archiveId (C : Crates) (info : Value) : Option String := do
  let extractor ← (info.get "extractor_key").asStr <|> (info.get "ie_key").asStr
  let id ← (info.get "id").asStr
  return s!"{C.toLowercase extractor} {id}"

/-- The entries of the list that was printed, those of the lists in it in their place. -/
def listEntries (C : Crates) (info : Value) : List (Listed C) :=
  info.entries.attach.flatMap fun ⟨entry, _⟩ =>
    if entry.isPlaylist then listEntries C entry
    else if (entry.get "live_status").asStr ∈ [some "is_live", some "is_upcoming", some "post_live"] then []
    else
      match (["webpage_url", "url"].findSome? fun key => (entry.get key).asStr).bind (httpUrl C) with
      | none => []
      | some url => if lists url && !videoInPlaylist url then [.nested url] else [.entry ⟨url, archiveId C entry⟩]
termination_by sizeOf info
decreasing_by exact Value.sizeOf_entry_lt ‹_›

/-! ## Reading the lists in a list -/

/-- What is printed for one list, or why nothing is. -/
abbrev Printed : Type := Except String Value

/-- What a run printed for each of its links, or why it printed nothing. -/
abbrev ListRun : Type := Except String (List Printed)

def nestedBatch : ℕ := 50

/-- The lists among the entries, each once, in the order they are read. -/
def nestedOf (listed : List (Listed C)) : List C.Url :=
  listed.foldl (fun nested l =>
    match l with
    | .nested list => if list ∈ nested then nested else nested ++ [list]
    | .entry _ => nested) []

/-- A run that was asked for lists in the list, and how many entries there were then. -/
structure Reading (C : Crates) where
  batch : List C.Url
  had : ℕ

/-- The variables of the loop. -/
structure Walk (C : Crates) where
  read : ℕ
  found : C.Url → Option Printed
  entries : List (ListEntry C)
  seen : List String
  readings : List (Reading C)

namespace Walk

/-- The closure `add`. -/
def add (w : Walk C) (e : ListEntry C) : Walk C :=
  if e.key ∈ w.seen then w else { w with seen := e.key :: w.seen, entries := w.entries ++ [e] }

/-- What a run gave for each list of its batch, in order. -/
def eachOf (run : ListRun) : List C.Url → List (C.Url × Printed) :=
  match run with
  | .error e => fun batch => batch.map fun list => (list, .error e)
  | .ok each => go each
where
  go : List Printed → List C.Url → List (C.Url × Printed)
    | _, [] => []
    | [], list :: batch => (list, .error s!"yt-dlp listed nothing for {C.asStr list}") :: go [] batch
    | inner :: each, list :: batch => (list, inner) :: go each batch

/-- The results wait under their lists. -/
def keep (found : C.Url → Option Printed) (results : List (C.Url × Printed)) : C.Url → Option Printed :=
  results.foldl (fun found r => Function.update found r.1 (some r.2)) found

/-- The next batch is read, 739–756. -/
def readBatch (extract : List C.Url → ListRun) (nested : List C.Url) (kind : ListKind) (latest : Option ℕ) (w : Walk C) : Walk C :=
  let wanted :=
    match kind, latest with
    | .uploads, some n => n - w.entries.length
    | _, _ => nestedBatch
  let batch := (nested.drop w.read).take (max 1 (min wanted nestedBatch))
  { w with
    read := w.read + batch.length
    found := keep w.found (eachOf (extract batch) batch)
    readings := w.readings ++ [⟨batch, w.entries.length⟩] }

/-- What was printed for the list at `url` is added, 759–777. -/
def addInner (w : Walk C) (url : C.Url) : Printed → Walk C
  | .ok inner =>
    if inner.isPlaylist then
      (listEntries C inner).foldl (fun w l =>
        match l with
        | .entry e => w.add e
        | .nested url => w.add ⟨url, none⟩) w
    else w.add ⟨url, archiveId C inner⟩
  | .error _ => w.add ⟨url, none⟩

/-- The loop over what is listed, 724–778. -/
def walk (extract : List C.Url → ListRun) (nested : List C.Url) (kind : ListKind) (latest : Option ℕ) :
    List (Listed C) → Walk C → Walk C
  | [], w => w
  | l :: rest, w =>
    if kind = .uploads ∧ latest.any (· ≤ w.entries.length) then w
    else
      match l with
      | .entry e => walk extract nested kind latest rest (w.add e)
      | .nested url =>
        let w := if w.read < nested.length ∧ (w.found url).isNone then w.readBatch extract nested kind latest else w
        match w.found url with
        | none => walk extract nested kind latest rest w
        | some inner => walk extract nested kind latest rest ({ w with found := Function.update w.found url none }.addInner url inner)

end Walk

/-- The newest, 779–783. -/
def newest {α : Type} (kind : ListKind) (latest : Option ℕ) (entries : List α) : List α :=
  match kind, latest with
  | .uploads, some n => entries.take n
  | .playlist, some n => entries.drop (entries.length - n)
  | _, _ => entries

/-- The title of the list at `url` and what it lists, from what its run gave: 700–711. -/
def firstListed (url : C.Url) (first : ListRun) : Option (Except String (String × List (Listed C))) :=
  match first.bind fun each => each.head?.getD (.error s!"yt-dlp listed nothing for {C.asStr url}") with
  | .error e =>
    if contains e "No suitable extractor" || contains e "Unsupported URL" then none else some (.error e)
  | .ok info =>
    if info.isPlaylist then
      some (.ok ((["title", "id"].findSome? fun key => (info.get key).asStr).getD (C.asStr url), listEntries C info))
    else none

/-- The end of a listing, 784–787. -/
def titled (title : String) (entries : List (ListEntry C)) : Except String (String × List (ListEntry C)) :=
  if entries.isEmpty then .error s!"Nothing to download in {title}" else .ok (title, entries)

/-- `list_entries_of`, and the runs it asked for after the first. -/
def listEntriesOf (url : C.Url) (kind : ListKind) (latest : Option ℕ)
    (extract : List C.Url → Option (ListKind × ℕ) → ListRun) :
    Option (Except String (String × List (ListEntry C))) × List (Reading C) :=
  let latest := latest.filter fun _ => kind ≠ .ranked
  match firstListed url (extract [url] (latest.map fun n => (kind, n))) with
  | none => (none, [])
  | some (.error e) => (some (.error e), [])
  | some (.ok (title, listed)) =>
    let w := Walk.walk (fun batch => extract batch none) (nestedOf listed) kind latest listed ⟨0, fun _ => none, [], [], []⟩
    (some (titled title (newest kind latest w.entries)), w.readings)

end Hyperfetch.Media
