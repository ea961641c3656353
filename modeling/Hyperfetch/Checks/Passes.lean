import Hyperfetch.Checks.Verdict

/-!
# What the last checks say of a file's bytes (`engine.rs`, `digest.rs`)

`Passes` is what is asked of a finished file. Each stage of the checks is put in terms of
it, and the stages give what a download's end says of its bytes.
-/

namespace Hyperfetch.Checks

open Weft Checked
open Storage (hex Hashing Pieces Pass pieceDigest pieceDigests comparedWith readPass)
open Repair (DownloadState)

variable {H : Type}

/-! ## One read of the file -/

/-- The digest of a whole file. -/
def wholeDigest (hashing : Hashing H (List UInt8)) (new : Nat → H) (file : List UInt8) : List UInt8 :=
  hashing.finish (hashing.update (new 0) file)

/-- A digest in the place of a chaining value. -/
def chainingValue (digest : List UInt8) : List UInt8 := if digest.length = 32 then digest else List.replicate 32 0

theorem head_pieceDigests (hashing : Hashing H (List UInt8)) (new : Nat → H) (file : List UInt8) :
    (pieceDigests hashing new (max file.length 1) file).head? = some (wholeDigest hashing new file) := by
  have hcount : ∃ n, max 1 (Storage.pieceCount (max file.length 1) file.length) = n + 1 :=
    ⟨max 1 (Storage.pieceCount (max file.length 1) file.length) - 1, by omega⟩
  obtain ⟨n, hn⟩ := hcount
  rw [pieceDigests, hn, List.range_succ_eq_map, List.map_cons, List.head?_cons, pieceDigest, wholeDigest, Nat.zero_mul,
    Storage.pieceOf, Nat.zero_mul, List.drop_zero, List.take_of_length_le (Nat.le_max_left _ _)]

theorem readPass_found (hashing : Hashing H (List UInt8)) {file : List UInt8} (hfile : file.length < 2 ^ 63)
    (flat : Text → Option (Nat → H)) (tree : Nat → H) (published : Option Text) (metalink : Option Pieces)
    (piece : Option Nat) {pass : Pass} (h : readPass hashing flat tree file published metalink piece = .ok pass) :
    (pass.published = ((published.bind (splitOnce ':')).bind fun cut => flat cut.1).map fun new =>
        hex (wholeDigest hashing new file)) ∧
      pass.blake3 = (((piece.filter (· < file.length)).map fun p => pieceDigests hashing tree (max p 1) file).getD []).map
        chainingValue := by
  have hsize : file.length ≤ wordMax := by
    unfold wordMax
    omega
  have hpiece : (piece.filter (· < file.length)).mapM (fun p => Storage.readDigests hashing tree p file) =
      (.ok ((piece.filter (· < file.length)).map fun p => pieceDigests hashing tree (max p 1) file) : Checked Empty _) := by
    refine Storage.mapM_of_ok fun p hfilter => Storage.readDigests_eq hfile ?_ tree
    have hp : p < file.length := by simpa using (Option.filter_eq_some_iff.mp hfilter).2
    omega
  unfold readPass at h
  simp only [Storage.mapM_readDigests hfile hsize, ok_bind, hpiece] at h
  split at h
  next hnothing =>
    simp only [Bool.and_eq_true, Option.isNone_iff_eq_none] at hnothing
    obtain ⟨⟨hwhole, -⟩, hnone⟩ := hnothing
    obtain rfl := Except.ok.inj h
    rw [hwhole, hnone]
    exact ⟨rfl, rfl⟩
  next =>
    obtain ⟨pieces, -, h⟩ := bind_eq_ok.mp h
    have hhead : (((published.bind (splitOnce ':')).bind fun cut => flat cut.1).map fun new =>
        pieceDigests hashing new (max file.length 1) file).bind (fun digests => digests.head?.map hex) =
          ((published.bind (splitOnce ':')).bind fun cut => flat cut.1).map fun new => hex (wholeDigest hashing new file) := by
      cases (published.bind (splitOnce ':')).bind fun cut => flat cut.1 with
      | none => rfl
      | some new => simp only [Option.map_some, Option.bind_some, head_pieceDigests]
    split at h
    · obtain ⟨bad, -, h⟩ := bind_eq_ok.mp h
      obtain rfl := Except.ok.inj h
      exact ⟨hhead, rfl⟩
    · obtain rfl := Except.ok.inj h
      exact ⟨hhead, rfl⟩

/-! ## What is asked of the bytes -/

/-- What a finished file is held to. -/
structure Passes (k : Checker H) (o : Options) (published : Option Text) (file : List UInt8) : Prop where
  /-- The checksum asked for. -/
  meets : Meets k.hashes o.expected file
  /-- A MEGA file's MAC. -/
  mac : ∀ cipher ∈ o.decrypt, file = [] ∨ cipher.referenceMac file = cipher.mac
  /-- A metalink's piece hashes, where no checksum of the whole is asked for. -/
  pieces : o.expected = none → ∀ c ∈ comparedWith k.flat file.length o.metalink, c.1.wrong k.hashing c.2 file = []
  /-- What the site published, in an algorithm there is. -/
  site : ∀ cut ∈ published.bind (splitOnce ':'), ∀ new ∈ k.flat cut.1, hex (wholeDigest k.hashing new file) = cut.2

/-- What was taken while the file was written is of the file. -/
def Written.Of (k : Checker H) (o : Options) (file : List UInt8) : Written → Prop
  | .file => True
  | .writer taken pieces =>
    taken (needed o.expected) = k.hashes.digest (needed o.expected) file ∧
      ∀ p ∈ pieceSize file.length, pieces p = (pieceDigests k.hashing k.tree p file).map chainingValue
  | .digest d | .flushed d => d = k.hashes.digest (needed o.expected) file

variable {k : Checker H} {o : Options} {fate : Fate} {file : List UInt8} {c : Option Checksum}

/-! ## The checksum asked for -/

theorem attempt_eq_ok {ε α : Type} {failed : Option String} {error : String → ε} {result : Except ε α} {a : α} :
    attempt failed error result = .ok a ↔ failed = none ∧ result = .ok a := by
  cases failed <;> simp [attempt]

theorem attempt_mismatch {α : Type} {failed : Option String} {result : Except VerifyError α} {why : String}
    (h : attempt failed .io result = .error (.mismatch why)) : result = .error (.mismatch why) := by
  cases failed with
  | none => exact h
  | some e => cases h

theorem firstLook_of {written : Written} (hof : written.Of k o file) : firstLook k o file written = readBack k o file := by
  cases written with
  | file => rfl
  | writer taken pieces =>
    show verifyDigest k.debug (taken (needed o.expected)) o.expected = _
    rw [hof.1]
    rfl
  | digest d | flushed d =>
    show verifyDigest k.debug d o.expected = _
    rw [show d = _ from hof]
    rfl

theorem readBack_mismatch (hwanted : wanted o.expected = .ok c) {why : String}
    (h : readBack k o file = .error (.mismatch why)) : ¬Meets k.hashes o.expected file := by
  rcases @verifyDigest_of k.debug k.hashes o.expected file c hwanted with ⟨-, hok⟩ | ⟨hnot, -⟩
  · rw [readBack, hok] at h
    cases h
  · exact hnot

theorem readBack_ok (hwanted : wanted o.expected = .ok c) {hash : Text} (h : readBack k o file = .ok hash) :
    Meets k.hashes o.expected file ∧ hash = hex (k.hashes.blake3 file) := by
  rcases @verifyDigest_of k.debug k.hashes o.expected file c hwanted with ⟨hmeets, hok⟩ | ⟨-, why, hno⟩
  · rw [readBack, hok] at h
    exact ⟨hmeets, (Except.ok.inj h).symm⟩
  · rw [readBack, hno] at h
    cases h

theorem readBack_meets (hwanted : wanted o.expected = .ok c) (h : Meets k.hashes o.expected file) :
    readBack k o file = .ok (hex (k.hashes.blake3 file)) := by
  rcases @verifyDigest_of k.debug k.hashes o.expected file c hwanted with ⟨-, hok⟩ | ⟨hnot, -⟩
  · exact hok
  · exact absurd h hnot

/-- Only the file itself can condemn it. -/
theorem confirmed_mismatch (hwanted : wanted o.expected = .ok c) {written : Written} {why : String}
    (h : confirmed k o fate file written = .error (.mismatch why)) : ¬Meets k.hashes o.expected file := by
  unfold confirmed at h
  split at h
  next hlook =>
    split at h
    · exact readBack_mismatch hwanted (attempt_mismatch h)
    · next hreads =>
      cases written with
      | file => exact readBack_mismatch hwanted (attempt_mismatch hlook)
      | writer taken pieces => exact absurd rfl hreads
      | digest d => exact absurd rfl hreads
      | flushed d => exact absurd rfl hreads
  next hlook => exact absurd h (hlook why)

theorem confirmed_ok (hwanted : wanted o.expected = .ok c) {written : Written} (hof : written.Of k o file) {hash : Text}
    (h : confirmed k o fate file written = .ok hash) :
    Meets k.hashes o.expected file ∧ hash = hex (k.hashes.blake3 file) := by
  unfold confirmed at h
  split at h
  · split at h
    · exact readBack_ok hwanted (attempt_eq_ok.mp h).2
    · cases h
  · obtain ⟨-, hlook⟩ := attempt_eq_ok.mp h
    rw [firstLook_of hof] at hlook
    exact readBack_ok hwanted hlook

theorem confirmed_meets (hwanted : wanted o.expected = .ok c) {written : Written} (hof : written.Of k o file)
    (h : Meets k.hashes o.expected file) : confirmed k o .good file written = .ok (hex (k.hashes.blake3 file)) := by
  unfold confirmed
  rw [firstLook_of hof, readBack_meets hwanted h]
  rfl

/-! ## The whole file -/

/-- What is asked of the whole file before the site's checksum. -/
def WholePasses (k : Checker H) (o : Options) (file : List UInt8) : Prop :=
  Meets k.hashes o.expected file ∧ ∀ cipher ∈ o.decrypt, file = [] ∨ cipher.referenceMac file = cipher.mac

theorem checkMac_ok : checkMac o fate file = .ok () → ∀ cipher ∈ o.decrypt, file = [] ∨ cipher.referenceMac file = cipher.mac := by
  intro h cipher hcipher
  unfold checkMac at h
  rw [Option.mem_def.mp hcipher] at h
  obtain ⟨matched, hmatched, h⟩ := bind_eq_ok.mp h
  obtain ⟨-, hmatched⟩ := attempt_eq_ok.mp hmatched
  rw [okOr_eq_ok] at hmatched
  cases matched with
  | true => exact (cipher.macMatches_iff file).mp hmatched
  | false => cases h

theorem checkMac_mismatch {why : String} (h : checkMac o fate file = .error (.mismatch why)) :
    ¬∀ cipher ∈ o.decrypt, file = [] ∨ cipher.referenceMac file = cipher.mac := by
  intro hall
  unfold checkMac at h
  cases hdecrypt : o.decrypt with
  | none =>
    rw [hdecrypt] at h
    cases h
  | some cipher =>
    have hmac := (cipher.macMatches_iff file).mpr (hall cipher hdecrypt)
    rw [hdecrypt] at h
    dsimp only at h
    rw [hmac] at h
    cases hfate : fate.mac with
    | none =>
      rw [hfate] at h
      cases h
    | some e =>
      rw [hfate] at h
      cases h

theorem checkMac_good (h : ∀ cipher ∈ o.decrypt, file = [] ∨ cipher.referenceMac file = cipher.mac) :
    checkMac o .good file = .ok () := by
  unfold checkMac
  cases hdecrypt : o.decrypt with
  | none => rfl
  | some cipher =>
    have hmac := (cipher.macMatches_iff file).mpr (h cipher hdecrypt)
    simp only [hmac]
    rfl

theorem verifyWritten_ok (hwanted : wanted o.expected = .ok c) {written : Written} (hof : written.Of k o file) {hash : Text}
    (h : verifyWritten k o fate file written = .ok hash) : WholePasses k o file ∧ hash = hex (k.hashes.blake3 file) := by
  obtain ⟨looked, hlook, h⟩ := bind_eq_ok.mp h
  obtain ⟨⟨⟩, hmac, h⟩ := bind_eq_ok.mp h
  obtain rfl := Except.ok.inj h
  obtain ⟨hashed, hconfirmed, hflush⟩ := bind_eq_ok.mp hlook
  obtain ⟨-, hflush⟩ := attempt_eq_ok.mp hflush
  obtain rfl := Except.ok.inj hflush
  obtain ⟨hmeets, rfl⟩ := confirmed_ok hwanted hof hconfirmed
  exact ⟨⟨hmeets, checkMac_ok hmac⟩, rfl⟩

theorem verifyWritten_mismatch (hwanted : wanted o.expected = .ok c) {written : Written} {why : String}
    (h : verifyWritten k o fate file written = .error (.mismatch why)) : ¬WholePasses k o file := by
  rintro ⟨hmeets, hmac⟩
  unfold verifyWritten hashAndFlush at h
  cases hconfirmed : confirmed k o fate file written with
  | error e =>
    rw [hconfirmed] at h
    cases h
    exact confirmed_mismatch hwanted hconfirmed hmeets
  | ok hash =>
    rw [hconfirmed] at h
    cases hflush : fate.flush.filter fun _ => flushes o written with
    | some e =>
      rw [hflush] at h
      cases h
    | none =>
      rw [hflush] at h
      cases hchecked : checkMac o fate file with
      | ok =>
        rw [hchecked] at h
        cases h
      | error e =>
        rw [hchecked] at h
        cases h
        exact checkMac_mismatch hchecked hmac

theorem verifyWritten_good (hwanted : wanted o.expected = .ok c) {written : Written} (hof : written.Of k o file)
    (h : WholePasses k o file) : verifyWritten k o .good file written = .ok (hex (k.hashes.blake3 file)) := by
  unfold verifyWritten hashAndFlush
  rw [confirmed_meets hwanted hof h.1, checkMac_good h.2]
  rfl

/-! ## The other checks -/

/-- The pieces that fail the hashes they are compared with. -/
def failing (k : Checker H) (metalink : Option Pieces) (file : List UInt8) : List ByteRange :=
  (comparedWith k.flat file.length metalink).elim [] fun c => c.1.wrong k.hashing c.2 file

theorem compared_eq_some {flat : Text → Option (Nat → H)} {size : Nat} {metalink : Option Pieces} {m : Pieces} {new : Nat → H} :
    comparedWith flat size metalink = some (m, new) ↔ metalink = some m ∧ m.fit size = true ∧ flat m.algo = some new := by
  unfold comparedWith
  constructor
  · intro h
    obtain ⟨m', hm, hnew⟩ := Option.bind_eq_some_iff.mp h
    obtain ⟨new', hflat, hpair⟩ := Option.map_eq_some_iff.mp hnew
    obtain ⟨rfl, rfl⟩ := Prod.mk.inj hpair
    obtain ⟨hmetalink, hfit⟩ := Option.filter_eq_some_iff.mp hm
    exact ⟨hmetalink, hfit, hflat⟩
  · rintro ⟨hmetalink, hfit, hflat⟩
    rw [hmetalink, Option.filter_some, if_pos hfit, Option.bind_some, hflat]
    rfl

/-- The pieces that fail are in the file. -/
theorem failing_within {metalink : Option Pieces} : ∀ r ∈ failing k metalink file, r.start ≤ r.end_ ∧ r.end_ < file.length := by
  unfold failing
  cases hcompared : comparedWith k.flat file.length metalink with
  | none => exact fun r hr => absurd hr List.not_mem_nil
  | some c =>
    obtain ⟨m, new⟩ := c
    exact (Storage.wrong_spec (compared_eq_some.mp hcompared).2.1 new).2

variable {published : Option Text} {written : Written} {state : Option DownloadState}

/-- What one read of the file finds. -/
structure Read (k : Checker H) (o : Options) (file : List UInt8) (wholeFailed : Option String) (published : Option Text)
    (written : Written) (pass : Pass) : Prop where
  bad : pass.bad = failing k (pieceChecks o wholeFailed) file
  published : pass.published = ((published.bind (splitOnce ':')).bind fun cut => k.flat cut.1).map fun new =>
    hex (wholeDigest k.hashing new file)
  blake3 : pass.bad = [] → written.Of k o file → pass.blake3 ≠ [] →
    ∃ p ∈ pieceSize file.length, pass.blake3 = (pieceDigests k.hashing k.tree p file).map chainingValue

theorem pos_of_pieceSize {size p : Nat} (h : p ∈ pieceSize size) : 0 < p ∧ p < size := by
  unfold pieceSize at h
  dsimp only at h
  split at h
  · next hlt =>
    obtain rfl := Option.some.inj h
    refine ⟨Nat.lt_of_lt_of_le ?_ (Nat.le_max_right _ _), hlt⟩
    decide
  · cases h

/-- The piece hashes that are kept, of the writer or of the read. -/
theorem blake3_of {wholeFailed : Option String} (hof : written.Of k o file) {read : List (List UInt8)}
    (hread : read = ((((piecesToRead o file wholeFailed published written).filter (· < file.length)).map fun p =>
      pieceDigests k.hashing k.tree (max p 1) file).getD []).map chainingValue)
    (hne : (keptPieces file written).getD read ≠ []) :
    ∃ p ∈ pieceSize file.length,
      (keptPieces file written).getD read = (pieceDigests k.hashing k.tree p file).map chainingValue := by
  cases hkept : keptPieces file written with
  | some hashes =>
    obtain ⟨p, hp, hhashes⟩ := Option.bind_eq_some_iff.mp hkept
    cases written with
    | writer taken pieces =>
      obtain rfl := Option.some.inj hhashes
      exact ⟨p, hp, hof.2 p hp⟩
    | file | digest d | flushed d => cases hhashes
  | none =>
    rw [hkept] at hne
    have hne : read ≠ [] := hne
    cases hpieces : (piecesToRead o file wholeFailed published written).filter (· < file.length) with
    | none =>
      rw [hpieces] at hread
      exact absurd hread hne
    | some p =>
      rw [hpieces] at hread
      obtain ⟨hp, -⟩ := Option.filter_eq_some_iff.mp (Option.filter_eq_some_iff.mp hpieces).1
      refine ⟨p, hp, ?_⟩
      rw [← Nat.max_eq_left (pos_of_pieceSize hp).1]
      exact hread

theorem readFile_ok (hfile : file.length < 2 ^ 63) {wholeFailed : Option String} {pass : Pass} {piece : Option Nat}
    (h : readFile k o fate file wholeFailed published written = .ok (pass, piece)) :
    piece = pieceSize file.length ∧ Read k o file wholeFailed published written pass := by
  unfold readFile at h
  obtain ⟨⟨⟩, -, h⟩ := bind_eq_ok.mp h
  obtain ⟨found, hfound, h⟩ := bind_eq_ok.mp h
  obtain ⟨-, hfound⟩ := attempt_eq_ok.mp hfound
  obtain ⟨pass', hread, hbad⟩ := @Storage.readPass_eq _ k.hashing file hfile k.flat k.tree published (pieceChecks o wholeFailed)
    (piecesToRead o file wholeFailed published written)
  rw [hread] at hfound
  obtain rfl : pass' = found := Except.ok.inj hfound
  obtain ⟨hpublished, hblake⟩ := readPass_found k.hashing hfile k.flat k.tree published _ _ hread
  obtain ⟨hpass, hpiece⟩ := Prod.mk.inj (Except.ok.inj h)
  refine ⟨hpiece.symm, ?_⟩
  split at hpass
  · subst hpass
    exact ⟨hbad, hpublished, fun _ hof hne => blake3_of hof hblake hne⟩
  · next hsome =>
    subst hpass
    refine ⟨hbad, hpublished, fun hnone => absurd ?_ hsome⟩
    rw [hnone]
    rfl

/-- What the site published is what the file has, where that is told. -/
def SitePasses (k : Checker H) (published : Option Text) (file : List UInt8) : Prop :=
  ∀ cut ∈ published.bind (splitOnce ':'), ∀ new ∈ k.flat cut.1, hex (wholeDigest k.hashing new file) = cut.2

/-- Where what the site published is another digest, it is told. -/
theorem sitePasses_iff {wholeFailed : Option String} {pass : Pass} (hread : Read k o file wholeFailed published written pass) :
    SitePasses k published file ↔ ∀ d ∈ disagrees published pass, d.2.1 = d.2.2 := by
  unfold SitePasses disagrees
  rw [hread.published]
  cases published.bind (splitOnce ':') with
  | none => simp
  | some cut =>
    cases hflat : k.flat cut.1 with
    | none => simp [hflat]
    | some new => simp [hflat, eq_comm]

theorem pieceChecks_of_failing {wholeFailed : Option String} (h : failing k (pieceChecks o wholeFailed) file ≠ []) :
    (wholeFailed = none → o.expected = none) ∧ pieceChecks o wholeFailed = o.metalink := by
  unfold pieceChecks at h ⊢
  cases hmetalink : o.metalink with
  | none =>
    rw [hmetalink] at h
    exact absurd rfl h
  | some m =>
    rw [hmetalink, Option.filter_some] at h
    split at h
    · next hasked =>
      refine ⟨fun hnone => ?_, by rw [Option.filter_some, if_pos hasked]⟩
      rw [hnone, Option.isSome_none, Bool.false_or] at hasked
      exact Option.isNone_iff_eq_none.mp hasked
    · exact absurd rfl h

theorem finish_ok (hfile : file.length < 2 ^ 63) {verified : Except VerifyError Text} {kept : Kept}
    (h : finish k o fate file verified published state written = .ok kept) :
    verified = .ok kept.hash ∧ failing k (pieceChecks o none) file = [] ∧ SitePasses k published file ∧
      (written.Of k o file → ∀ p ∈ kept.pieces,
        p.1 ∈ pieceSize file.length ∧ p.2 = (pieceDigests k.hashing k.tree p.1 file).map chainingValue) := by
  unfold finish at h
  split at h
  · cases h
  · split at h
    · obtain ⟨⟨pass, piece⟩, -, h⟩ := bind_eq_ok.mp h
      dsimp only at h
      split at h <;> cases h
    · cases h
  · next hash =>
    obtain ⟨⟨pass, piece⟩, hran, h⟩ := bind_eq_ok.mp h
    obtain ⟨rfl, hread⟩ := readFile_ok hfile hran
    dsimp only at h
    split at h
    · cases h
    · next hbad =>
      have hbad : pass.bad = [] := by simpa using hbad
      have hsite := sitePasses_iff hread
      have hpieces : written.Of k o file → ∀ p ∈ ((pieceSize file.length).filter fun _ => !pass.blake3.isEmpty).map fun p => (p, pass.blake3),
          p.1 ∈ pieceSize file.length ∧ p.2 = (pieceDigests k.hashing k.tree p.1 file).map chainingValue := by
        intro hof p hp
        obtain ⟨size, hsize, rfl⟩ := Option.map_eq_some_iff.mp hp
        obtain ⟨hsize, hne⟩ := Option.filter_eq_some_iff.mp hsize
        obtain ⟨size', hsize', hblake⟩ := hread.blake3 hbad hof (by simpa using hne)
        obtain rfl := Option.some.inj (hsize.symm.trans hsize')
        exact ⟨hsize, hblake⟩
      rw [hread.bad] at hbad
      split at h
      · next algo expected actual hdis =>
        split at h
        · cases h
        · next heq =>
          obtain rfl := Except.ok.inj h
          refine ⟨rfl, hbad, hsite.mpr fun d hd => ?_, hpieces⟩
          rw [hdis] at hd
          obtain rfl := Option.some.inj hd
          exact not_not.mp heq
      · next hdis =>
        obtain rfl := Except.ok.inj h
        refine ⟨rfl, hbad, hsite.mpr fun d hd => ?_, hpieces⟩
        rw [hdis] at hd
        cases hd

theorem refetch_cases (size : Nat) (bad : List ByteRange) :
    (∃ why, refetch k fate state size bad = .io why) ∨ ((∃ why, refetch k fate state size bad = .wrong why) ∨
      ∃ s ∈ state, s.fileSize = size ∧ refetch k fate state size bad = .refetch (missing size bad s)) := by
  unfold refetch
  split
  · exact .inr (.inl ⟨_, rfl⟩)
  · next s hs =>
    obtain ⟨hstate, hsize⟩ := Option.filter_eq_some_iff.mp hs
    split
    · exact .inl ⟨_, rfl⟩
    · exact .inl ⟨_, rfl⟩
    · exact .inr (.inr ⟨s, hstate, of_decide_eq_true hsize, rfl⟩)

theorem readFile_fails (hfile : file.length < 2 ^ 63) {wholeFailed : Option String} {e : Halt Unfinished}
    (h : readFile k o fate file wholeFailed published written = .error e) : ∃ why, e = .error (.io why) := by
  unfold readFile at h
  obtain ⟨pass, hread, -⟩ := @Storage.readPass_eq _ k.hashing file hfile k.flat k.tree published (pieceChecks o wholeFailed)
    (piecesToRead o file wholeFailed published written)
  rw [hread] at h
  cases hpieces : fate.pieces.filter fun _ => (keptPieces file written).isSome with
  | some why =>
    rw [hpieces] at h
    cases h
    exact ⟨_, rfl⟩
  | none =>
    rw [hpieces] at h
    cases hfate : fate.read with
    | some why =>
      rw [hfate] at h
      cases h
      exact ⟨_, rfl⟩
    | none =>
      rw [hfate] at h
      cases h

/-- Why a finished file is given up, or fetched again in part. -/
def Fails (k : Checker H) (o : Options) (verified : Except VerifyError Text) (published : Option Text) (file : List UInt8) : Prop :=
  (∃ why, verified = .error (.mismatch why)) ∨ (o.expected = none ∧ failing k o.metalink file ≠ []) ∨ ¬SitePasses k published file

/-- How a download ends that is not kept. -/
def EndsSo (k : Checker H) (o : Options) (state : Option DownloadState) (file : List UInt8) (e : Halt Unfinished) : Prop :=
  (∃ why, e = .error (.wrong why)) ∨ failing k o.metalink file ≠ [] ∧
    ∃ s ∈ state, s.fileSize = file.length ∧ e = .error (.refetch (missing file.length (failing k o.metalink file) s))

theorem refetch_ends {wholeFailed : Option String} {pass : Pass} (hread : Read k o file wholeFailed published written pass)
    (hbad : (!pass.bad.isEmpty) = true) {e : Halt Unfinished}
    (h : (fail (refetch k fate state file.length pass.bad) : Checked Unfinished Kept) = .error e) :
    (wholeFailed = none → o.expected = none ∧ failing k o.metalink file ≠ []) ∧
      ((∃ why, e = .error (.io why)) ∨ EndsSo k o state file e) := by
  have hne : failing k (pieceChecks o wholeFailed) file ≠ [] := by
    rw [← hread.bad]
    simpa using hbad
  obtain ⟨hexpected, hsame⟩ := pieceChecks_of_failing hne
  rw [hsame] at hne
  obtain rfl := Except.error.inj h
  refine ⟨fun hnone => ⟨hexpected hnone, hne⟩, ?_⟩
  rw [hread.bad, hsame]
  rcases @refetch_cases _ k fate state file.length (failing k o.metalink file) with
    ⟨why, hio⟩ | ⟨why, hwrong⟩ | ⟨s, hs, hsize, hagain⟩
  · exact .inl ⟨why, by rw [hio]⟩
  · exact .inr (.inl ⟨why, by rw [hwrong]⟩)
  · exact .inr (.inr ⟨hne, s, hs, hsize, by rw [hagain]⟩)

/-- A file is given up as wrong, or fetched again in part, only if it fails what it is held to. -/
theorem finish_fails (hfile : file.length < 2 ^ 63) {verified : Except VerifyError Text} {e : Halt Unfinished}
    (h : finish k o fate file verified published state written = .error e) :
    (∃ why, e = .error (.io why)) ∨ (Fails k o verified published file ∧ EndsSo k o state file e) := by
  unfold finish at h
  split at h
  · cases h
    exact .inl ⟨_, rfl⟩
  · next why =>
    have hfails : Fails k o (.error (.mismatch why)) published file := .inl ⟨why, rfl⟩
    split at h
    · cases hran : readFile k o fate file (some why) published written with
      | error e' =>
        rw [hran] at h
        cases h
        exact .inl (readFile_fails hfile hran)
      | ok found =>
        obtain ⟨pass, piece⟩ := found
        obtain ⟨-, hread⟩ := readFile_ok hfile hran
        rw [hran, ok_bind] at h
        dsimp only at h
        split at h
        · next hbad => exact (refetch_ends hread hbad h).2.imp_right fun hends => ⟨hfails, hends⟩
        · cases h
          exact .inr ⟨hfails, .inl ⟨_, rfl⟩⟩
    · cases h
      exact .inr ⟨hfails, .inl ⟨_, rfl⟩⟩
  · next hash =>
    cases hran : readFile k o fate file none published written with
    | error e' =>
      rw [hran] at h
      cases h
      exact .inl (readFile_fails hfile hran)
    | ok found =>
      obtain ⟨pass, piece⟩ := found
      obtain ⟨-, hread⟩ := readFile_ok hfile hran
      rw [hran, ok_bind] at h
      dsimp only at h
      split at h
      · next hbad =>
        obtain ⟨hpieces, hends⟩ := refetch_ends hread hbad h
        exact hends.imp_right fun hends => ⟨.inr (.inl (hpieces rfl)), hends⟩
      · split at h
        · next algo expected actual hdis =>
          split at h
          · next hne =>
            cases h
            refine .inr ⟨.inr (.inr fun hsite => hne ?_), .inl ⟨_, rfl⟩⟩
            exact (sitePasses_iff hread).mp hsite _ hdis
          · cases h
        · cases h

theorem readFile_good (hfile : file.length < 2 ^ 63) (wholeFailed : Option String) :
    ∃ pass, readFile k o .good file wholeFailed published written = .ok (pass, pieceSize file.length) := by
  obtain ⟨pass, hread, -⟩ := @Storage.readPass_eq _ k.hashing file hfile k.flat k.tree published (pieceChecks o wholeFailed)
    (piecesToRead o file wholeFailed published written)
  unfold readFile
  rw [hread]
  exact ⟨_, rfl⟩

theorem finish_good (hfile : file.length < 2 ^ 63) {hash : Text} (hpieces : failing k (pieceChecks o none) file = [])
    (hsite : SitePasses k published file) : ∃ kept, finish k o .good file (.ok hash) published state written = .ok kept := by
  obtain ⟨pass, hran⟩ := @readFile_good H k o file published written hfile none
  obtain ⟨-, hread⟩ := readFile_ok hfile hran
  have hbad : pass.bad.isEmpty = true := by rw [hread.bad, hpieces, List.isEmpty_nil]
  unfold finish
  dsimp only
  rw [hran, ok_bind]
  dsimp only
  rw [hbad, Bool.not_true, if_neg Bool.false_ne_true]
  cases hdis : disagrees published pass with
  | none => exact ⟨_, rfl⟩
  | some d =>
    obtain ⟨algo, expected, actual⟩ := d
    dsimp only
    rw [if_neg (not_not.mpr ((sitePasses_iff hread).mp hsite _ hdis))]
    exact ⟨_, rfl⟩

/-! ## The verdict -/

theorem passes_iff : Passes k o published file ↔
    WholePasses k o file ∧ failing k (pieceChecks o none) file = [] ∧ SitePasses k published file := by
  have hfailing : failing k (pieceChecks o none) file = [] ↔
      (o.expected = none → ∀ c ∈ comparedWith k.flat file.length o.metalink, c.1.wrong k.hashing c.2 file = []) := by
    unfold failing pieceChecks
    cases hexpected : o.expected with
    | some text =>
      have hnone : o.metalink.filter (fun _ => (none : Option String).isSome || (some text).isNone) = none := by
        cases o.metalink <;> rfl
      rw [hnone]
      refine ⟨fun _ h => ?_, fun _ => rfl⟩
      cases h
    | none =>
      have hsame : o.metalink.filter (fun _ => (none : Option String).isSome || (none : Option Text).isNone) = o.metalink := by
        cases o.metalink <;> rfl
      rw [hsame]
      cases comparedWith k.flat file.length o.metalink with
      | none => simp
      | some c => simp
  rw [hfailing]
  exact ⟨fun h => ⟨⟨h.meets, h.mac⟩, h.pieces, h.site⟩, fun h => ⟨h.1.1, h.1.2, h.2.1, h.2.2⟩⟩

/-- Where what was taken on the way is of the file, it is kept only if its bytes pass, with its own
hash and piece hashes, and it is if they pass and nothing fails. -/
theorem lastChecks_of (hfile : file.length < 2 ^ 63) (hwanted : wanted o.expected = .ok c) (published : Option Text)
    (state : Option DownloadState) {written : Written} (hof : written.Of k o file) :
    (∀ fate kept, lastChecks k o fate file published state written = .ok kept →
      Passes k o published file ∧ kept.hash = hex (k.hashes.blake3 file) ∧
        ∀ p ∈ kept.pieces, p.1 ∈ pieceSize file.length ∧ p.2 = (pieceDigests k.hashing k.tree p.1 file).map chainingValue) ∧
      (Passes k o published file → ∃ kept, lastChecks k o .good file published state written = .ok kept) := by
  constructor
  · intro fate kept hkept
    obtain ⟨hverified, hpieces, hsite, hhashes⟩ := finish_ok hfile hkept
    obtain ⟨hwhole, hhash⟩ := verifyWritten_ok hwanted hof hverified
    exact ⟨passes_iff.mpr ⟨hwhole, hpieces, hsite⟩, hhash, hhashes hof⟩
  · intro hpasses
    obtain ⟨hwhole, hpieces, hsite⟩ := passes_iff.mp hpasses
    rw [lastChecks, verifyWritten_good hwanted hof hwhole]
    exact finish_good hfile hpieces hsite

/-- A file is kept only if its bytes pass what they are held to, as long as what was taken on the
way is of the file, and then history has its own hash and piece hashes; where nothing fails, it is
kept if they pass. Whatever was taken on the way, it is given up as wrong, or fetched again in part,
only if they do not pass, and then the state beside it has every byte but those of the pieces that
fail; and nothing overflows. -/
theorem verdict (k : Checker H) (o : Options) (fate : Fate) {file : List UInt8} (hfile : file.length < 2 ^ 63)
    {c : Option Checksum} (hwanted : wanted o.expected = .ok c) (published : Option Text) (state : Option DownloadState)
    (written : Written) :
    (∀ kept, lastChecks k o fate file published state written = .ok kept → written.Of k o file →
      Passes k o published file ∧ kept.hash = hex (k.hashes.blake3 file) ∧
        ∀ p ∈ kept.pieces, p.1 ∈ pieceSize file.length ∧ p.2 = (pieceDigests k.hashing k.tree p.1 file).map chainingValue) ∧
    (written.Of k o file → Passes k o published file → ∃ kept, lastChecks k o .good file published state written = .ok kept) ∧
    (∀ why, lastChecks k o fate file published state written = fail (.wrong why) → ¬Passes k o published file) ∧
    (∀ saved, lastChecks k o fate file published state written = fail (.refetch saved) → ¬Passes k o published file ∧
      ∃ s ∈ state, s.fileSize = file.length ∧ saved = missing file.length (failing k o.metalink file) s ∧
        ∀ b, Covered saved.completedRanges b ↔ b < file.length ∧ ¬Covered (failing k o.metalink file) b) ∧
    lastChecks k o fate file published state written ≠ fault := by
  have hends : ∀ e, lastChecks k o fate file published state written = .error e →
      (∃ why, e = .error (.io why)) ∨ (¬Passes k o published file ∧ EndsSo k o state file e) := by
    intro e he
    refine (finish_fails hfile he).imp_right fun ⟨hfails, hends⟩ => ⟨fun hpasses => ?_, hends⟩
    obtain ⟨hwhole, hpieces, hsite⟩ := passes_iff.mp hpasses
    rcases hfails with ⟨why, hmismatch⟩ | ⟨hexpected, hne⟩ | hnot
    · exact verifyWritten_mismatch hwanted hmismatch hwhole
    · refine hne ?_
      have hsame : pieceChecks o none = o.metalink := by
        rw [pieceChecks, hexpected]
        cases o.metalink <;> rfl
      rw [hsame] at hpieces
      exact hpieces
    · exact hnot hsite
  refine ⟨?_, ?_, ?_, ?_, ?_⟩
  · exact fun kept hkept hof => (lastChecks_of hfile hwanted published state hof).1 fate kept hkept
  · exact fun hof => (lastChecks_of hfile hwanted published state hof).2
  · intro why hwrong
    rcases hends _ hwrong with ⟨why', hio⟩ | ⟨hnot, -⟩
    · cases hio
    · exact hnot
  · intro saved hagain
    rcases hends _ hagain with ⟨why, hio⟩ | ⟨hnot, ⟨why, hwrong⟩ | ⟨-, s, hs, hsize, hsaved⟩⟩
    · cases hio
    · cases hwrong
    · obtain rfl := Unfinished.refetch.inj (Halt.error.inj hsaved)
      have hword : u64Max = 2 ^ 64 - 1 := rfl
      refine ⟨hnot, s, hs, hsize, rfl, fun b => covered_computeGaps (by omega) (fun r hr => ?_) b⟩
      have hwithin := failing_within r hr
      exact ⟨by omega, by omega⟩
  · intro hfault
    rcases hends _ hfault with ⟨why, hio⟩ | ⟨-, ⟨why, hwrong⟩ | ⟨-, s, -, -, hsaved⟩⟩
    · cases hio
    · cases hwrong
    · cases hsaved

/-- BLAKE3, as far as three bytes need it. -/
def abcChecker : Checker (List UInt8) where
  hashes := {
    blake3 := fun file =>
      if file = [0x61, 0x62, 0x63] then
        [0x64, 0x37, 0xb3, 0xac, 0x38, 0x46, 0x51, 0x33, 0xff, 0xb6, 0x3b, 0x75, 0x27, 0x3a, 0x8d, 0xb5,
          0x48, 0xc5, 0x58, 0x46, 0x5d, 0x79, 0xdb, 0x03, 0xfd, 0x35, 0x9c, 0x6c, 0xd5, 0xbd, 0x9d, 0x85]
      else []
    other := fun _ _ => [] }
  hashing := Storage.sha1
  flat algo := if algo = "sha1".toList then some fun _ => [] else none
  tree _ := []
  debug := String.ofList
  path := "abc.part"

def abcDigits : Text := "6437b3ac38465133ffb63b75273a8db548c558465d79db03fd359c6cd5bd9d85".toList

/-- The metalink's second piece is not the file's, its checksum is. -/
def abcAsked : Options := ⟨some ("BLAKE3: ".toList ++ abcDigits), some Storage.abcPieces, true, none⟩

theorem wanted_abc : wanted abcAsked.expected = .ok (some ⟨.blake3, abcDigits, rfl⟩) := by decide +kernel

theorem passes_abc {k : Checker H} (hhash : hex (k.hashes.blake3 [0x61, 0x62, 0x63]) = abcDigits) :
    Passes k abcAsked none [0x61, 0x62, 0x63] where
  meets c hc := by
    rw [wanted_abc] at hc
    cases hc
    exact hhash
  mac cipher hcipher := by cases hcipher
  pieces hnone := by cases hnone
  site cut hcut := by cases hcut

theorem verdict_abc : ∃ kept, lastChecks abcChecker abcAsked .good [0x61, 0x62, 0x63] none none .file = .ok kept :=
  (verdict abcChecker abcAsked .good (by decide) wanted_abc none none .file).2.1 trivial (passes_abc (by decide +kernel))
end Hyperfetch.Checks
