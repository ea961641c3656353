import Hyperfetch.Worker.Response
import Hyperfetch.Zip.Bounds

/-!
# Listing a ZIP on a server

`list_zip` reads the end of the file, for ZIP64 the record it names, and the
directory, each with a range request unless it lies in the end that was read.
A run keeps what was asked for besides the result. The server may answer
anything. The place of the ZIP64 record is not checked against the file before
it is asked for, as that of the directory is; where it lies in the file,
everything asked for does (`listZip_orderly_iff`).
-/

namespace Hyperfetch.Zip

open Weft Weft.Checked

/-- Bytes read from the end of the file. -/
def tailLen : Nat := 64 * 1024

/-- The bytes a request asks for. -/
inductive Wanted
  | last (len : Nat)
  | from_ (first last : Nat)
  deriving DecidableEq, Repr

/-- What comes of a request: its body is read in chunks, up to a trouble. -/
inductive Answer
  | quiet
  | lost (why : String)
  | response (status : Nat) (contentRange : Text) (body : List (Except ZipError (List UInt8)))

/-! ## One request -/

def wanted (start : Option Nat) (len : Nat) : Checked ZipError Wanted :=
  match start with
  | none => .ok (.last len)
  | some start => do
    let behind ← add start (max len 1)
    let last ← sub behind 1
    .ok (.from_ start last)

/-- The chunks of a body, no more than `most` bytes. -/
def gather (most : Nat) : List UInt8 → List (Except ZipError (List UInt8)) → Except ZipError (List UInt8)
  | body, [] => .ok body
  | _, .error e :: _ => .error e
  | body, .ok chunk :: more =>
    if most < (body ++ chunk).length then .error (.sentMore most) else gather most (body ++ chunk) more

/-- The bytes of an answer, and the file's size. -/
def receive (start : Option Nat) (len : Nat) : Answer → Checked ZipError (List UInt8 × Nat)
  | .quiet => fail .quiet
  | .lost why => fail (.lost why)
  | .response status contentRange body =>
    if status ≠ 206 then
      if 200 ≤ status ∧ status < 300 then fail .noParts else fail (.http status)
    else
      match parseContentRange contentRange with
      | .ok (range, some size) =>
        if start.all (range.start == ·) ∧ range.len ≤ len then do
          let body ← lift (gather range.len [] body)
          if body.length ≠ range.len then fail (.sentOther body.length contentRange)
          else if start.isNone then do
            let behind ← add range.end_ 1
            if behind ≠ size then fail (.sentOther body.length contentRange) else .ok (body, size)
          else .ok (body, size)
        else fail (.badRange contentRange)
      | _ => fail (.badRange contentRange)

/-! ## Runs -/

/-- What was asked for, and what came of it. -/
structure Run (α : Type) where
  asked : List Wanted
  result : Checked ZipError α

namespace Run

variable {α β : Type}

def bind (x : Run α) (f : α → Run β) : Run β :=
  match x.result with
  | .ok a => ⟨x.asked ++ (f a).asked, (f a).result⟩
  | .error e => ⟨x.asked, .error e⟩

instance : Monad Run where
  pure a := ⟨[], .ok a⟩
  bind := bind

/-- Asks for nothing. -/
def of (result : Checked ZipError α) : Run α := ⟨[], result⟩

end Run

/-- A server's answers, told apart by which request they are to. -/
abbrev Server := Nat → Wanted → Answer

def fetch (server : Server) (number : Nat) (start : Option Nat) (len : Nat) : Run (List UInt8 × Nat) :=
  match wanted start len with
  | .ok range => ⟨[range], receive start len (server number range)⟩
  | .error e => ⟨[], .error e⟩

/-- `len` bytes of the file from `start` on, if they lie in its tail. -/
def within (tail : List UInt8) (tailStart start len : Nat) : Option (List UInt8) :=
  -- `checked_sub`, `checked_add`
  if tailStart ≤ start ∧ start - tailStart + len ≤ wordMax then
    getSlice tail (start - tailStart) (start - tailStart + len)
  else none

/-- The directory the end of the file names. -/
def directoryOf (server : Server) (tail : List UInt8) (tailStart : Nat) : End → Run Directory
  | .directory dir => .of (.ok dir)
  | .zip64At at_ =>
    match within tail tailStart at_ zip64EndLen with
    | some record => .of (lift (zip64End record))
    | none => do
      let (record, _) ← fetch server 1 (some at_) zip64EndLen
      .of (lift (zip64End record))

/-- The entries of a directory, in the tail or asked for. -/
def listingOf (server : Server) (tail : List UInt8) (tailStart : Nat) (dir : Directory) : Run (List ZipEntry) :=
  match within tail tailStart dir.offset dir.size with
  | some listing => .of (entries listing dir.entries)
  | none => do
    let (listing, _) ← fetch server 2 (some dir.offset) dir.size
    .of (entries listing dir.entries)

def listZip (server : Server) : Run (List ZipEntry) := do
  let (tail, size) ← fetch server 0 none tailLen
  let tailStart ← .of (sub size tail.length)
  let fileEnd ← .of (endOfDirectory tail)
  let dir ← directoryOf server tail tailStart fileEnd
  .of (lift (dir.check size))
  listingOf server tail tailStart dir

/-! ## What is asked for -/

namespace Run

variable {α β : Type} {x : Run α} {f : α → Run β} {ask : Wanted → Prop}

theorem bind_of_ok {a : α} (h : x.result = .ok a) : (x >>= f) = ⟨x.asked ++ (f a).asked, (f a).result⟩ := by
  show bind x f = _
  rw [bind, h]

theorem bind_of_error {e : Halt ZipError} (h : x.result = .error e) : (x >>= f) = ⟨x.asked, .error e⟩ := by
  show bind x f = _
  rw [bind, h]

/-- Only what `ask` holds of is asked for, without a fault, and `p` holds of
the result. -/
def Keeps (x : Run α) (ask : Wanted → Prop) (p : α → Prop) : Prop := (∀ w ∈ x.asked, ask w) ∧ Meets x.result p

theorem keeps_of {result : Checked ZipError α} {p : α → Prop} (h : Meets result p) : (of result).Keeps ask p :=
  ⟨fun _ hw => absurd hw List.not_mem_nil, h⟩

theorem Keeps.bind {p : α → Prop} {q : β → Prop} (hx : x.Keeps ask p) (hf : ∀ a, p a → (f a).Keeps ask q) :
    (x >>= f).Keeps ask q := by
  cases hresult : x.result with
  | ok a =>
    obtain ⟨hmore, hmeets⟩ := hf a (hx.2.2 a hresult)
    rw [bind_of_ok hresult]
    refine ⟨fun w hw => ?_, hmeets⟩
    rcases List.mem_append.mp hw with hw | hw
    · exact hx.1 w hw
    · exact hmore w hw
  | error e =>
    have hfault : e ≠ .fault := fun he => hx.2.1 (hresult.trans (congrArg Except.error he))
    rw [bind_of_error hresult]
    refine ⟨hx.1, fun h => hfault (Except.error.inj h), fun a ha => ?_⟩
    cases ha

/-- A run faults, or asks for `w`. -/
def Strays (x : Run α) (w : Wanted) : Prop := x.result = fault ∨ w ∈ x.asked

theorem Strays.bind {w : Wanted} (h : x.Strays w) : (x >>= f).Strays w := by
  cases hresult : x.result with
  | ok a =>
    rw [bind_of_ok hresult]
    refine .inr (List.mem_append_left _ (h.resolve_left fun hfault => ?_))
    rw [hresult] at hfault
    cases hfault
  | error e =>
    rw [bind_of_error hresult]
    rw [Strays, hresult] at h
    exact h.imp_left fun hfault => congrArg Except.error (Except.error.inj hfault)

theorem Strays.bind_of_ok {a : α} {w : Wanted} (hx : x.result = .ok a) (h : (f a).Strays w) : (x >>= f).Strays w := by
  rw [Run.bind_of_ok hx]
  exact h.imp_right (List.mem_append_right _)

end Run

/-- The bytes of an answer are as many as asked for, and not more than the file
has. -/
theorem receive_safe (start : Option Nat) (len : Nat) (answer : Answer) :
    Meets (receive start len answer) fun p => p.1.length ≤ len ∧ p.1.length ≤ p.2 ∧ p.2 ≤ wordMax := by
  cases answer with
  | quiet => exact meets_fail
  | lost why => exact meets_fail
  | response status contentRange body =>
    rw [receive]
    split
    · split <;> exact meets_fail
    · split
      · rename_i range size hparse
        obtain ⟨_, hle, hlt, hmax⟩ := parseContentRange_eq_ok.mp hparse
        have hmax' : size ≤ wordMax := hmax
        have hlen : range.len = range.end_ - range.start + 1 := by
          unfold ByteRange.len saturatingAdd
          omega
        split
        · rename_i hfits
          refine (meets_lift _).bind fun bytes _ => ?_
          split
          · exact meets_fail
          · rename_i hall
            rw [not_not] at hall
            have hbounds : bytes.length ≤ len ∧ bytes.length ≤ size ∧ size ≤ wordMax :=
              ⟨hall ▸ hfits.2, by omega, hmax'⟩
            split
            · refine (meets_add (by omega)).bind fun behind _ => ?_
              split
              · exact meets_fail
              · exact meets_ok hbounds
            · exact meets_ok hbounds
        · exact meets_fail
      · exact meets_fail

/-- A range within a file, no larger than a directory may be. -/
def Wanted.Within (size : Nat) : Wanted → Prop
  | .last len => len = tailLen
  | .from_ first stop => first ≤ stop ∧ stop < size ∧ stop - first < maxDirectory

/-- The tail and the size a server gives. -/
def firstAnswer (server : Server) : Checked ZipError (List UInt8 × Nat) :=
  receive none tailLen (server 0 (.last tailLen))

/-- Nothing overflows, and after the tail only what lies in the file is asked
for. -/
def Orderly (server : Server) : Prop :=
  (listZip server).result ≠ fault ∧
    ∀ w ∈ (listZip server).asked, w = .last tailLen ∨ ∃ tail size, firstAnswer server = .ok (tail, size) ∧ w.Within size

/-- A request for bytes that lie in the file is orderly. -/
theorem fetch_keeps (server : Server) (number : Nat) {start len size : Nat} (hsize : size ≤ wordMax)
    (hin : start + max len 1 ≤ size) (hlen : max len 1 ≤ maxDirectory) :
    (fetch server number (some start) len).Keeps (Wanted.Within size) fun p => p.1.length ≤ len := by
  have hwanted : wanted (some start) len = .ok (.from_ start (start + max len 1 - 1)) := by
    rw [wanted]
    rw [add_eq (by omega), ok_bind, sub_eq (by omega), ok_bind]
  rw [fetch, hwanted]
  refine ⟨fun w hw => ?_, (receive_safe _ _ _).imp fun p hp => hp.1⟩
  rw [List.mem_singleton] at hw
  subst hw
  exact ⟨by omega, by omega, by omega⟩

/-- What lies in the file but not in its tail begins before the tail. -/
theorem lt_of_within_none {tail : List UInt8} {tailStart start len : Nat} (h : within tail tailStart start len = none)
    (hin : start + len ≤ tailStart + tail.length) (hsize : tailStart + tail.length ≤ wordMax) : start < tailStart := by
  by_contra hge
  have hslice : getSlice tail (start - tailStart) (start - tailStart + len) = some _ :=
    getSlice_eq_some.mpr ⟨Nat.le_add_right _ _, by omega, rfl⟩
  rw [within, if_pos ⟨by omega, by omega⟩, hslice] at h
  cases h

section

variable {server : Server} {tail : List UInt8} {size : Nat}

theorem check_eq_ok {dir : Directory} (h : dir.check size = .ok ()) :
    dir.size ≤ maxDirectory ∧ dir.offset + dir.size ≤ size := by
  rw [Directory.check] at h
  split at h
  · cases h
  · rename_i hcaps
    split at h
    · rename_i hroom
      exact ⟨by omega, hroom.2.2.2⟩
    · cases h

/-- The directory is found by asking only for a record in the file. -/
theorem directoryOf_keeps (hsize : size ≤ wordMax) (fileEnd : End)
    (hinside : ∀ place, fileEnd = .zip64At place → place + zip64EndLen ≤ size) :
    (directoryOf server tail (size - tail.length) fileEnd).Keeps (Wanted.Within size) fun _ => True := by
  cases fileEnd with
  | directory dir => exact Run.keeps_of (meets_ok trivial)
  | zip64At place =>
    have hin := hinside place rfl
    have hrecord : zip64EndLen = 56 := rfl
    have hmost : 56 ≤ maxDirectory := by decide
    rw [directoryOf]
    cases within tail (size - tail.length) place zip64EndLen with
    | some record => exact Run.keeps_of ((meets_lift _).imp fun _ _ => trivial)
    | none =>
      refine (fetch_keeps server 1 hsize (by omega) (by omega)).bind fun p _ => ?_
      exact Run.keeps_of ((meets_lift _).imp fun _ _ => trivial)

/-- A directory that was checked is read without a fault, and asked for only
within the file. -/
theorem listingOf_keeps (htail : tail.length ≤ tailLen) (hlen : tail.length ≤ size) (hsize : size ≤ wordMax)
    {dir : Directory} (hcheck : dir.check size = .ok ()) :
    (listingOf server tail (size - tail.length) dir).Keeps (Wanted.Within size) fun _ => True := by
  obtain ⟨hmost, hin⟩ := check_eq_ok hcheck
  have hcap : maxDirectory = 16 * 1024 * 1024 := rfl
  have hshort : tailLen = 64 * 1024 := rfl
  have hread {listing : List UInt8} (hlisting : listing.length < 2 ^ 63) :
      Meets (entries listing dir.entries) fun _ => True :=
    (entriesFrom_safe ⟨listing, hlisting⟩ (Nat.zero_le _)).imp fun _ _ => trivial
  rw [listingOf]
  cases hwithin : within tail (size - tail.length) dir.offset dir.size with
  | some listing =>
    refine Run.keeps_of (hread ?_)
    rw [within] at hwithin
    split at hwithin
    · obtain ⟨_, hstop, rfl⟩ := getSlice_eq_some.mp hwithin
      rw [length_extract hstop]
      omega
    · cases hwithin
  | none =>
    have hbefore := lt_of_within_none hwithin (by omega) (by omega)
    refine (fetch_keeps server 2 hsize (by omega) (by omega)).bind fun p hp => ?_
    exact Run.keeps_of (hread (by omega))

/-- If the record a locator names lies in the file, so does all that is asked
for. -/
theorem orderly_of_inside
    (hinside : ∀ tail size place, firstAnswer server = .ok (tail, size) → Names tail place → place + zip64EndLen ≤ size) :
    Orderly server := by
  have hshort : tailLen = 64 * 1024 := rfl
  have hkeeps : (listZip server).Keeps
      (fun w => w = .last tailLen ∨ ∃ tail size, firstAnswer server = .ok (tail, size) ∧ w.Within size) fun _ => True := by
    have hfirst : (fetch server 0 none tailLen).Keeps
        (fun w => w = .last tailLen ∨ ∃ tail size, firstAnswer server = .ok (tail, size) ∧ w.Within size)
        fun p => firstAnswer server = .ok p ∧ p.1.length ≤ tailLen ∧ p.1.length ≤ p.2 ∧ p.2 ≤ wordMax := by
      have hsafe := receive_safe none tailLen (server 0 (.last tailLen))
      refine ⟨fun w hw => .inl (List.mem_singleton.mp hw), hsafe.1, fun p hp => ⟨hp, hsafe.2 p hp⟩⟩
    refine hfirst.bind fun p hp => ?_
    obtain ⟨tail, size⟩ := p
    obtain ⟨hanswer, htail, hlen, hsize⟩ := hp
    have hask {α : Type} {x : Run α} {q : α → Prop} (hx : x.Keeps (Wanted.Within size) q) : x.Keeps
        (fun w => w = .last tailLen ∨ ∃ tail size, firstAnswer server = .ok (tail, size) ∧ w.Within size) q :=
      ⟨fun w hw => .inr ⟨tail, size, hanswer, hx.1 w hw⟩, hx.2⟩
    dsimp only at hlen htail hsize ⊢
    rw [sub_eq hlen]
    refine (Run.keeps_of (meets_ok rfl)).bind fun tailStart hstart => ?_
    subst hstart
    have hslice : tail.length < 2 ^ 63 := by omega
    have hend := endOfDirectory_safe ⟨tail, hslice⟩
    refine (Run.keeps_of ⟨hend.1, fun fileEnd hread => hread⟩).bind fun fileEnd hread => ?_
    refine (hask (directoryOf_keeps hsize fileEnd fun place hplace => ?_)).bind fun dir _ => ?_
    · subst hplace
      exact hinside tail size place hanswer ((endOfDirectory_zip64At ⟨tail, hslice⟩).mp hread)
    · refine (Run.keeps_of (meets_lift _)).bind fun checked hcheck => ?_
      exact hask (listingOf_keeps htail hlen hsize hcheck)
  exact ⟨hkeeps.2.1, hkeeps.1⟩

/-- A record asked for with no regard to where the file ends. -/
theorem fetch_strays (server : Server) (number place len : Nat) (hlen : 0 < len) :
    (fetch server number (some place) len).Strays (.from_ place (place + len - 1)) := by
  have hmax : max len 1 = len := max_eq_left hlen
  rw [fetch, wanted, hmax]
  by_cases hsum : place + len ≤ wordMax
  · rw [add_eq hsum, ok_bind, sub_eq (by omega), ok_bind]
    exact .inr (List.mem_singleton.mpr rfl)
  · rw [add, if_neg hsum]
    exact .inl rfl

theorem inside_of_orderly (h : Orderly server) {place : Nat} (hanswer : firstAnswer server = .ok (tail, size))
    (hnames : Names tail place) : place + zip64EndLen ≤ size := by
  have hrecord : zip64EndLen = 56 := rfl
  have hshort : tailLen = 64 * 1024 := rfl
  obtain ⟨htail, hlen, _⟩ := (receive_safe none tailLen (server 0 (.last tailLen))).2 _ hanswer
  dsimp only at htail hlen
  have hslice : tail.length < 2 ^ 63 := by omega
  by_contra hout
  have hwithin : within tail (size - tail.length) place zip64EndLen = none := by
    rw [within]
    split
    · rename_i hstart
      have hnone : ¬ (place - (size - tail.length) ≤ place - (size - tail.length) + zip64EndLen ∧
          place - (size - tail.length) + zip64EndLen ≤ tail.length) := by omega
      rw [getSlice, if_neg hnone]
    · rfl
  have hstrays : (listZip server).Strays (.from_ place (place + zip64EndLen - 1)) := by
    refine .bind_of_ok hanswer (.bind_of_ok (sub_eq hlen) ?_)
    refine .bind_of_ok ((endOfDirectory_zip64At ⟨tail, hslice⟩).mpr hnames) (.bind ?_)
    rw [directoryOf, hwithin]
    exact (fetch_strays server 1 place zip64EndLen (by decide)).bind
  rcases hstrays with hfault | hasked
  · exact h.1 hfault
  · rcases h.2 _ hasked with heq | ⟨tail', size', hanswer', hin⟩
    · cases heq
    · rw [hanswer] at hanswer'
      cases hanswer'
      have hlast := hin.2.1
      omega

/-- All that is computed is free of overflow, and all that is asked for lies in
the file and is no more than a directory may be, exactly when a ZIP64 record
that a locator names lies in the file. -/
theorem listZip_orderly_iff (server : Server) : Orderly server ↔
    ∀ tail size place, firstAnswer server = .ok (tail, size) → Names tail place → place + zip64EndLen ≤ size :=
  ⟨fun h _ _ _ hanswer hnames => inside_of_orderly h hanswer hnames, orderly_of_inside⟩

end

/-- A file of 42 bytes: a locator that names `place`, and the end record. -/
def claiming (place : Nat) : Server := fun _ _ =>
  .response 206 "bytes 0-41/42".toList
    [.ok (layout [(4, zip64LocatorSig), (4, 0), (8, place), (4, 1), (4, endSig), (2, 0), (2, 0), (2, 0), (2, 0),
      (4, 0), (4, 0), (2, 0)])]

/-- The end of a record at the last place overflows; and a record behind the
end of the file is asked for. -/
theorem listZip_strays : (listZip (claiming (2 ^ 64 - 1))).result = fault ∧
    (listZip (claiming 42)).asked = [.last tailLen, .from_ 42 97] := by
  refine ⟨?_, ?_⟩ <;> decide +kernel

end Hyperfetch.Zip
