import Hyperfetch.Engine.Names

/-!
# The name a response gives its file (`extract_filename`)

The first Content-Disposition that names a file wins, else the last segment of
the URL's path; a name without a known extension gets that of the Content-Type.

Of a response only its first Content-Disposition and its first Content-Type
count, as bytes; of a URL only the segments of its path, if it has any.
-/

namespace Hyperfetch

open Weft

/-- What stands between parameters. -/
def isGap (c : Char) : Bool := c == ';' || isWhite c

/-- A quoted value up to its closing quote, and what is behind it. -/
def unquote : Text → Text × Text
  | [] => ([], [])
  | '"' :: rest => ([], rest)
  | '\\' :: [] => ([], [])
  | '\\' :: c :: rest => (c :: (unquote rest).1, (unquote rest).2)
  | c :: rest => (c :: (unquote rest).1, (unquote rest).2)

/-- The value behind a `=`, and what is behind it. -/
def paramValue (after : Text) : Text × Text :=
  match after.dropWhile isWhite with
  | '"' :: quoted => unquote quoted
  | plain =>
    let (value, remaining) := (splitOnce ';' plain).getD (plain, [])
    (trim value, remaining)

theorem length_unquote_le (text : Text) : (unquote text).2.length ≤ text.length := by
  induction text using unquote.induct with
  | case1 => exact Nat.le_refl 0
  | case2 rest => exact Nat.le_succ _
  | case3 => exact Nat.zero_le _
  | case4 c rest ih =>
    show (unquote rest).2.length ≤ rest.length + 1 + 1
    omega
  | case5 c rest hquote hlast hescape ih =>
    have heq : unquote (c :: rest) = (c :: (unquote rest).1, (unquote rest).2) := by
      rw [unquote]
      · exact hquote
      · exact hlast
      · exact hescape
    rw [heq]
    exact Nat.le_succ_of_le ih

theorem length_paramValue_le (after : Text) : (paramValue after).2.length ≤ after.length := by
  have hdrop := (List.dropWhile_suffix (l := after) isWhite).length_le
  unfold paramValue
  split
  · rename_i quoted hquoted
    have hunquote := length_unquote_le quoted
    rw [hquoted, List.length_cons] at hdrop
    omega
  · cases hcut : splitOnce ';' (after.dropWhile isWhite) with
    | none => exact Nat.zero_le _
    | some p =>
      have heq := congrArg List.length (splitOnce_eq_some.mp hcut).1
      rw [List.length_append, List.length_cons] at heq
      show p.2.length ≤ after.length
      omega

/-- The parameters from `rest` on. -/
def paramsFrom (rest : Text) : List (Text × Text) :=
  match _hcut : splitOnce '=' (rest.dropWhile isGap) with
  | none => []
  | some (before, after) =>
    -- a parameter without a value
    if before.contains ';' then paramsFrom ((rest.dropWhile isGap).dropWhile (· != ';'))
    else (trim before, (paramValue after).1) :: paramsFrom (paramValue after).2
termination_by rest.length
decreasing_by
  · have hgap := (List.dropWhile_suffix (l := rest) isGap).length_le
    have heq := (splitOnce_eq_some.mp _hcut).1
    cases hrest : rest.dropWhile isGap with
    | nil =>
      rw [hrest] at heq
      exact absurd heq (by simp)
    | cons c more =>
      have hc : (c != ';') = true := by
        have hnot := @head_dropWhile Char isGap rest c (by rw [hrest]; rfl)
        rw [isGap, Bool.or_eq_false_iff] at hnot
        rw [bne, hnot.1]
        rfl
      have hsuffix := (List.dropWhile_suffix (l := more) (· != ';')).length_le
      rw [hrest, List.length_cons] at hgap
      rw [@List.dropWhile_cons_of_pos Char (· != ';') c more hc]
      omega
  · have hgap := (List.dropWhile_suffix (l := rest) isGap).length_le
    have hvalue := length_paramValue_le after
    have heq := congrArg List.length (splitOnce_eq_some.mp _hcut).1
    rw [List.length_append, List.length_cons] at heq
    omega

/-- Splits `type; a=b; c="d;e"` into `(name, unquoted value)` pairs. -/
def dispositionParams (header : Text) : List (Text × Text) :=
  match splitOnce ';' header with
  | none => []
  | some (_, rest) => paramsFrom rest

def hexDigitValue (b : UInt8) : Option Nat :=
  if 0x30 ≤ b ∧ b ≤ 0x39 then some (b.toNat - 0x30)
  else if 0x41 ≤ b ∧ b ≤ 0x46 then some (b.toNat - 0x37)
  else if 0x61 ≤ b ∧ b ≤ 0x66 then some (b.toNat - 0x57)
  else none

/-- `u8::from_str_radix` of two characters, which takes a `+` before a digit. -/
def hexByte (x y : UInt8) : Option UInt8 :=
  match hexDigitValue x, hexDigitValue y with
  | some high, some low => some (UInt8.ofNat (16 * high + low))
  | none, some low => if x = 0x2B then some (UInt8.ofNat low) else none
  | _, none => none

def percentDecode : List UInt8 → List UInt8
  | [] => []
  | [b] => [b]
  | [b, x] => [b, x]
  | b :: x :: y :: rest =>
    if b = 0x25 then
      match hexByte x y with
      | some value => value :: percentDecode rest
      | none => b :: percentDecode (x :: y :: rest)
    else b :: percentDecode (x :: y :: rest)

/-- Decodes an RFC 5987 `charset'lang'percent-encoded` value (UTF-8 or ISO-8859-1). -/
def decodeExtValue (value : Text) : Option Text := do
  let (charset, rest) ← splitOnce '\'' value
  let (_, encoded) ← splitOnce '\'' rest
  let bytes := percentDecode (Utf8.encode encoded)
  if eqIgnoreAsciiCase charset "utf-8".toList then some (Utf8.lossy bytes)
  else if eqIgnoreAsciiCase charset "iso-8859-1".toList then some (bytes.map fun b => Char.ofNat b.toNat)
  else none

/-- `filename*` (RFC 5987) wins over `filename`; the first of each counts. -/
def contentDispositionFilename (header : Text) : Option Text :=
  let params := dispositionParams header
  let extended := params.findSome? fun p =>
    if eqIgnoreAsciiCase p.1 "filename*".toList then decodeExtValue p.2 else none
  let plain := params.findSome? fun p => if eqIgnoreAsciiCase p.1 "filename".toList then some p.2 else none
  extended.or plain

/-! ## The name -/

end Hyperfetch
