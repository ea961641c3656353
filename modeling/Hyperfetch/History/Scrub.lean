import Hyperfetch.Text
import Hyperfetch.Weft.Fields
import Hyperfetch.Weft.Percent
import Mathlib.Data.List.Infix
import Mathlib.Data.List.DropRight

/-!
# Taking the secrets out of a link (`scrub`, `scrub_pairs`)

A saved link loses its login, a Telegram bot's token in its path, and the values
of secret parameters in its query and fragment, also in the links carried in
values, to any depth.

Parameter: the `url` crate, as a type of links with its parser, what the code
reads of a link and what it sets (`UrlCrate`). The form encoding of the pairs is
modelled itself. `scrub` calls itself on the links in values, so it counts fuel;
a link of length below the fuel is answered (`scrub_isSome`).
-/

namespace Hyperfetch.History

open Weft

/-! ## The names of secrets -/

/-- `REDACTED`. -/
def redacted : Text := "REDACTED".toList

/-- `SECRET_PARAMS`. -/
def secretParams : List Text :=
  ["x-amz-credential", "awsaccesskeyid", "x-goog-credential", "googleaccessid", "sig", "tempauth", "apikey", "key",
    "authorization", "auth", "jwt", "hdnts", "hdnea", "usg"].map String.toList

/-- `SECRET_SUFFIXES`. -/
def secretSuffixes : List Text :=
  ["token", "_key", "-key", "secret", "signature", "password"].map String.toList

/-- `HOST_SECRET_PARAMS`. -/
def hostSecretParams : List (Text × List Text) :=
  [("discordapp.com", ["hm"]), ("discordapp.net", ["hm"]),
    ("safelinks.protection.outlook.com", ["data", "sdata"]),
    ("safelinks.protection.office365.us", ["data", "sdata"]),
    ("slack.com", ["t"])].map fun row => (row.1.toList, row.2.map String.toList)

def telegram : Text := "api.telegram.org".toList

/-- `trim_matches`. -/
def trimMatches (c : Char) (text : Text) : Text := (text.dropWhile (· == c)).rdropWhile (· == c)

/-- Whether a parameter named `name` holds a secret; `names` lists the names
that do on the link's host. -/
def secretParam (name : Text) (names : List Text) : Bool :=
  let name := trimMatches '_' (name.map Char.toLower)
  (secretParams ++ names).any (name == ·) || secretSuffixes.any (·.isSuffixOf name)

/-- `host` is `domain` or a subdomain of it. -/
def onDomain (host domain : Text) : Bool :=
  domain.isSuffixOf host &&
    let sub := host.take (host.length - domain.length)
    sub.isEmpty || sub.getLast? == some '.'

/-- The names that are secrets on `host` only. -/
def scopedOn (host : Text) : List Text :=
  (hostSecretParams.filter fun row => onDomain host row.1).flatMap (·.2)

/-! ## A text cut, scrubbed and joined -/

/-- What became of a text: its new form, if it has one, and whether a secret
already was `REDACTED`. -/
structure Scrubbed where
  owned : Option Text := none
  marked : Bool := false
  deriving DecidableEq, Repr

/-- The text after. -/
def Scrubbed.after (s : Scrubbed) (text : Text) : Text := s.owned.getD text

/-- The parts joined again, or nothing new if none of them is. -/
def rejoin (sep : Char) (rows : List (Text × Scrubbed)) : Scrubbed :=
  { owned := if rows.any (·.2.owned.isSome) then some ([sep].intercalate (rows.map fun row => row.2.after row.1)) else none
    marked := rows.any (·.2.marked) }

/-! ## Bot tokens -/

/-- The number and the token of a `bot<id>:<token>` segment. -/
def botToken (segment : Text) : Option (Text × Text) :=
  match segment with
  | 'b' :: 'o' :: 't' :: rest =>
    (splitOnce ':' rest).filter fun row => !row.1.isEmpty && row.1.all Char.isDigit && !row.2.isEmpty
  | _ => none

def scrubSegment (segment : Text) : Scrubbed :=
  match botToken segment with
  | none => {}
  | some (id, token) =>
    if token = redacted then { marked := true }
    else { owned := some ('b' :: 'o' :: 't' :: (id ++ ':' :: redacted)) }

/-- The path of a Telegram Bot API link without the bot's token. -/
def scrubBotToken (path : Text) : Scrubbed :=
  rejoin '/' ((path.splitOn '/').map fun segment => (segment, scrubSegment segment))

/-! ## Pairs -/

/-- `form_urlencoded::parse(pair).next()`, for a text without `&`. -/
def formPair (pair : Text) : Option (Text × Text) :=
  if pair.isEmpty then none
  else match splitOnce '=' pair with
    | some (name, value) => some (Percent.decode name, Percent.decode value)
    | none => some (Percent.decode pair, Percent.decode [])

def rawName (pair : Text) : Text := ((splitOnce '=' pair).map (·.1)).getD pair

def schemeMark : Text := "://".toList

/-- One pair; `scrub` is what is done to a link in its value. -/
def scrubPair (scrub : Text → Option Scrubbed) (names : List Text) (pair : Text) : Option Scrubbed :=
  match formPair pair with
  | none => some {}
  | some (name, value) =>
    let secret := secretParam name names
    if secret && value == redacted then some { marked := true }
    else if secret && !value.isEmpty then some { owned := some (rawName pair ++ '=' :: redacted) }
    else if schemeMark <:+: value then
      (scrub value).map fun inner =>
        { owned := inner.owned.map fun link => rawName pair ++ '=' :: Percent.byteSerialize (Utf8.encode link)
          marked := inner.marked }
    else some {}

/-- The `name=value` pairs of a query or fragment with secret values replaced and
links inside values scrubbed. -/
def scrubPairs (scrub : Text → Option Scrubbed) (names : List Text) (pairs : Text) : Option Scrubbed :=
  ((pairs.splitOn '&').mapM fun pair => (scrubPair scrub names pair).map fun s => (pair, s)).map (rejoin '&')

/-! ## Links -/

/-- Where a link holds pairs. -/
inductive Part
  | query
  | fragment
  deriving DecidableEq

/-- What `scrub` uses of the `url` crate. -/
structure UrlCrate where
  Url : Type
  parse : Text → Option Url
  serialize : Url → Text
  /-- Whether there is a user name or a password. -/
  hasLogin : Url → Bool
  dropLogin : Url → Url
  hostStr : Url → Option Text
  path : Url → Text
  setPath : Url → Text → Url
  part : Part → Url → Option Text
  setPart : Part → Url → Text → Url

variable (U : UrlCrate)

/-- The host a link's secrets are looked up by. -/
def UrlCrate.host (u : U.Url) : Text := ((U.hostStr u).getD []).map Char.toLower

/-- A link on its way through `scrub`. -/
structure Pass where
  url : U.Url
  changed : Bool
  marked : Bool

variable {U}

def Pass.login (url : U.Url) : Pass U :=
  if U.hasLogin url then ⟨U.dropLogin url, true, false⟩ else ⟨url, false, false⟩

/-- A part was scrubbed; it is set only if it changed. -/
def Pass.took (p : Pass U) (s : Scrubbed) (set : Text → U.Url) : Pass U :=
  { url := (s.owned.map set).getD p.url
    changed := p.changed || s.owned.isSome
    marked := p.marked || s.marked }

def Pass.bot (p : Pass U) : Pass U :=
  if U.host p.url = telegram then p.took (scrubBotToken (U.path p.url)) (U.setPath p.url) else p

def Pass.pairs (scrub : Text → Option Scrubbed) (names : List Text) (k : Part) (p : Pass U) : Option (Pass U) :=
  match U.part k p.url with
  | none => some p
  | some q => (scrubPairs scrub names q).map fun s => p.took s (U.setPart k p.url)

/-- What `scrub` does to a link it could parse. -/
def scrubUrl (scrub : Text → Option Scrubbed) (url : U.Url) : Option (Pass U) := do
  let p := (Pass.login url).bot
  let names := scopedOn (U.host (Pass.login url).url)
  let p ← p.pairs scrub names .query
  p.pairs scrub names .fragment

/-- A text without any of these marks is not looked at. -/
def worthALook (input : Text) : Bool :=
  input.contains '@' || input.contains '?' || input.contains '#' || decide ("/bot".toList <:+: input)

variable (U)

/-- `input` without its secrets (nothing when it has none), and whether a secret
already is `REDACTED`. -/
def scrub : Nat → Text → Option Scrubbed
  | 0, _ => none
  | fuel + 1, input =>
    if !worthALook input then some {}
    else match U.parse input with
      | none => some {}
      | some url => (scrubUrl (scrub fuel) url).map fun p =>
        { owned := if p.changed then some (U.serialize p.url) else none
          marked := p.marked }

def redactUrl (fuel : Nat) (url : Text) : Option Text := (scrub U fuel url).map fun s => s.after url

def isRedacted (fuel : Nat) (url : Text) : Option Bool := (scrub U fuel url).map (·.marked)

end Hyperfetch.History
