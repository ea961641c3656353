import Hyperfetch.Storage.Pieced
import Hyperfetch.Storage.Writer
import Hyperfetch.Weft.Text

/-!
# Checksums and the digests they are held against (`storage.rs`)

A checksum as it is given (`Checksum.parse`) and a file's digest: its BLAKE3, and
what the checksum needs besides. The hash functions are any functions of a file's
bytes. What a checksum asks of a file is said of its bytes (`Meets`); a digest of
the file passes exactly if they do (`verifyDigest_of`).
-/

namespace Hyperfetch.Checks

open Weft
open Storage (hex isHexDigit)

inductive Algo
  | sha256
  | sha512
  | sha1
  | md5
  | blake3
  /-- A bare 64-digit digest: both look alike, so either may match. -/
  | sha256OrBlake3
  deriving DecidableEq, Repr

namespace Algo

def name : Algo → String
  | sha256 => "SHA-256"
  | sha512 => "SHA-512"
  | sha1 => "SHA-1"
  | md5 => "MD5"
  | blake3 => "BLAKE3"
  | sha256OrBlake3 => "SHA-256 or BLAKE3"

def hexLen : Algo → Nat
  | md5 => 32
  | sha1 => 40
  | sha256 | blake3 | sha256OrBlake3 => 64
  | sha512 => 128

/-- The digest a checksum of this algorithm needs computed besides BLAKE3. -/
def extra : Algo → Option Algo
  | blake3 => none
  | sha256OrBlake3 => some sha256
  | algo => some algo

end Algo

/-- The hash functions. -/
structure Hashes where
  blake3 : List UInt8 → List UInt8
  other : Algo → List UInt8 → List UInt8

/-- BLAKE3 always, and the one a checksum needed besides. -/
abbrev FileDigest : Type := Storage.FileDigest (List UInt8) Algo (List UInt8)

namespace FileDigest

def blake3Hex (d : FileDigest) : Text := hex d.blake3

/-- The `algo` digest as lowercase hex, if it was taken. -/
def extraHex (d : FileDigest) (algo : Algo) : Option Text := (d.extra.filter fun taken => taken.1 = algo).map fun taken => hex taken.2

end FileDigest

/-- `FileDigest::of_file`, and what `StreamHasher` has of the same bytes. -/
def Hashes.digest (hashes : Hashes) (extra : Option Algo) (file : List UInt8) : FileDigest :=
  ⟨hashes.blake3 file, extra.map fun algo => (algo, hashes.other algo file)⟩

/-! ## A checksum as it is given -/

/-- Why a text is no checksum. -/
inductive Malformed
  | unsupported (algo : Text)
  | notHex (digest : Text)
  | unsupportedDigits (n : Nat)
  | wrongDigits (algo : Algo) (n : Nat)
  deriving DecidableEq

/-- `debug` shows a text in quotes. -/
def Malformed.message (debug : Text → String) : Malformed → String
  | unsupported algo => s!"Unsupported checksum algorithm: {String.ofList algo}"
  | notHex digest =>
    "Checksum " ++ debug digest ++
      " is not a hex digest; give only the hash (e.g. sha256:<64 hex digits>), not a whole checksum-file line"
  | unsupportedDigits n =>
    s!"Unsupported checksum of {n} hex digits: use MD5 (32), SHA-1 (40), SHA-256/BLAKE3 (64) or SHA-512 (128), " ++
      "optionally prefixed with md5:, sha1:, sha256:, sha512: or blake3:"
  | wrongDigits algo n => s!"A {algo.name} checksum has {algo.hexLen} hex digits, not {n}"

structure Checksum where
  algo : Algo
  /-- Lowercase. -/
  hex : Text
  length_hex : hex.length = algo.hexLen
  deriving DecidableEq

namespace Checksum

/-- The algorithm named before the colon. -/
def algoNamed (name : Text) : Option Algo :=
  let name := (trim name).map Char.toLower
  if name = "sha256".toList ∨ name = "sha-256".toList then some .sha256
  else if name = "sha512".toList ∨ name = "sha-512".toList then some .sha512
  else if name = "sha1".toList ∨ name = "sha-1".toList then some .sha1
  else if name = "md5".toList then some .md5
  else if name = "blake3".toList then some .blake3
  else none

/-- The algorithm of a bare digest, by how long it is. -/
def algoOfLen (n : Nat) : Option Algo :=
  if n = 32 then some .md5
  else if n = 40 then some .sha1
  else if n = 64 then some .sha256OrBlake3
  else if n = 128 then some .sha512
  else none

/-- The algorithm, if one is named, and the digits. -/
def cut (given : Text) : Except Malformed (Option Algo × Text) :=
  match splitOnce ':' given with
  | some (name, digits) => do
    let algo ← okOr (.unsupported ((trim name).map Char.toLower)) (algoNamed name)
    pure (some algo, trim digits)
  | none => .ok (none, given)

/-- The digits, once they are found to be as many as the algorithm's. -/
def ofDigits (algo : Algo) (digits : Text) : Except Malformed Checksum :=
  if h : digits.length = algo.hexLen then .ok ⟨algo, digits.map Char.toLower, by rw [List.length_map, h]⟩
  else .error (.wrongDigits algo digits.length)

def parse (expected : Text) : Except Malformed Checksum := do
  let (algo, digits) ← cut (trim expected)
  if digits = [] ∨ digits.all isHexDigit = false then .error (.notHex digits)
  else do
    let algo ← okOr (.unsupportedDigits digits.length) (algo <|> algoOfLen digits.length)
    ofDigits algo digits

def actual (c : Checksum) (d : FileDigest) : Text :=
  match c.algo with
  | .blake3 => d.blake3Hex
  | .sha256OrBlake3 => "SHA-256 ".toList ++ (d.extraHex .sha256).getD [] ++ " / BLAKE3 ".toList ++ d.blake3Hex
  | algo => (d.extraHex algo).getD []

def matches_ (c : Checksum) (d : FileDigest) : Bool :=
  match c.algo with
  | .blake3 => d.blake3Hex == c.hex
  | .sha256OrBlake3 => d.extraHex .sha256 == some c.hex || d.blake3Hex == c.hex
  | algo => d.extraHex algo == some c.hex

/-- What the checksum asks of a file's bytes. -/
def Names (hashes : Hashes) (c : Checksum) (file : List UInt8) : Prop :=
  match c.algo with
  | .blake3 => Storage.hex (hashes.blake3 file) = c.hex
  | .sha256OrBlake3 => Storage.hex (hashes.other .sha256 file) = c.hex ∨ Storage.hex (hashes.blake3 file) = c.hex
  | algo => Storage.hex (hashes.other algo file) = c.hex

end Checksum

/-! ## Holding a file to it -/

/-- Why a finished file failed verification. -/
inductive VerifyError
  /-- It could not be read. -/
  | io (why : String)
  /-- It was read but does not match. -/
  | mismatch (why : String)
  deriving DecidableEq

/-- The checksum asked for, if any. -/
def wanted (expected : Option Text) : Except Malformed (Option Checksum) :=
  match expected with
  | none => .ok none
  | some text => (Checksum.parse text).map some

/-- The digest it needs computed besides BLAKE3. -/
def needs (expected : Option Text) : Except Malformed (Option Algo) :=
  (wanted expected).map fun c => c.bind fun c => c.algo.extra

/-- `needs(..).unwrap_or_default()`. -/
def needed (expected : Option Text) : Option Algo := (needs expected).toOption.join

/-- What is said of a digest that does not match. -/
def mismatchMessage (c : Checksum) (d : FileDigest) : String :=
  s!"Checksum verification failed: expected {c.algo.name} {String.ofList c.hex}, got {String.ofList (c.actual d)}"

variable (debug : Text → String)

/-- The file's BLAKE3, if its digest passes. -/
def verifyDigest (d : FileDigest) (expected : Option Text) : Except VerifyError Text :=
  match wanted expected with
  | .error e => .error (.io (e.message debug))
  | .ok none => .ok d.blake3Hex
  | .ok (some c) => if c.matches_ d then .ok d.blake3Hex else .error (.mismatch (mismatchMessage c d))

/-- The file meets the checksum asked for, if one is. -/
def Meets (hashes : Hashes) (expected : Option Text) (file : List UInt8) : Prop :=
  ∀ c, wanted expected = .ok (some c) → c.Names hashes file

variable {hashes : Hashes} {expected : Option Text} {file : List UInt8}

theorem extraHex_digest (extra : Option Algo) (algo : Algo) :
    (hashes.digest extra file).extraHex algo = if extra = some algo then some (hex (hashes.other algo file)) else none := by
  unfold FileDigest.extraHex Hashes.digest
  cases extra with
  | none => rfl
  | some taken =>
    by_cases h : taken = algo
    · subst h
      simp
    · simp [h]

@[simp] theorem blake3Hex_digest (extra : Option Algo) : (hashes.digest extra file).blake3Hex = hex (hashes.blake3 file) := rfl

/-- A digest that has what the checksum needs tells what the file's bytes do. -/
theorem matches_digest (c : Checksum) : c.matches_ (hashes.digest c.algo.extra file) = true ↔ c.Names hashes file := by
  obtain ⟨algo, digits, hlen⟩ := c
  cases algo <;>
    simp [Checksum.matches_, Checksum.Names, extraHex_digest, Algo.extra]

theorem needed_of_wanted {c : Option Checksum} (h : wanted expected = .ok c) : needed expected = c.bind fun c => c.algo.extra := by
  unfold needed needs
  rw [h]
  rfl

/-- A digest of the file passes exactly if the file meets the checksum, and is refused as a
mismatch otherwise. -/
theorem verifyDigest_of {c : Option Checksum} (hwanted : wanted expected = .ok c) :
    (Meets hashes expected file ∧
        verifyDigest debug (hashes.digest (needed expected) file) expected = .ok (hex (hashes.blake3 file))) ∨
      (¬Meets hashes expected file ∧
        ∃ why, verifyDigest debug (hashes.digest (needed expected) file) expected = .error (.mismatch why)) := by
  have hneeded := needed_of_wanted hwanted
  unfold verifyDigest
  rw [hwanted]
  cases c with
  | none =>
    refine .inl ⟨fun c hc => ?_, rfl⟩
    rw [hwanted] at hc
    cases hc
  | some c =>
    have hmeets : Meets hashes expected file ↔ c.Names hashes file := by
      refine ⟨fun h => h c hwanted, fun h c' hc' => ?_⟩
      rw [hwanted] at hc'
      cases hc'
      exact h
    have hsome : (some c).bind (fun c => c.algo.extra) = c.algo.extra := rfl
    rw [hmeets, hneeded, hsome]
    by_cases hnames : c.Names hashes file
    · refine .inl ⟨hnames, ?_⟩
      exact if_pos (matches_digest c |>.mpr hnames)
    · refine .inr ⟨hnames, mismatchMessage c (hashes.digest c.algo.extra file), ?_⟩
      have hmatches : c.matches_ (hashes.digest c.algo.extra file) = false :=
        Bool.eq_false_iff.mpr fun h => hnames ((matches_digest c).mp h)
      exact if_neg (Bool.eq_false_iff.mp hmatches)

end Hyperfetch.Checks
