import Hyperfetch.Text
import Hyperfetch.Weft.Ascii
import Hyperfetch.Worker.Attempt

/-!
# Replies on an FTP control connection (`ftp.rs`)

`read_reply` reads a reply line by line and stops at the line that it takes for the
last one. `Reply` is a reply as the standard has it; what `read_reply` makes of one
is told line by line (`readFrom_lines`), and of a session reply by reply.
-/

namespace Hyperfetch.Ftp

open Weft Utf8

/-- `MAX_LINE`. -/
def maxLine : Nat := 8 * 1024

/-- `MAX_LINES`. -/
def maxLines : Nat := 256

def carriageReturn : UInt8 := 0x0D

inductive IoError
  | unexpectedEof
  | invalidData (what : String)
  deriving DecidableEq, Repr

/-- How an `IoError` reads. -/
def IoError.display : IoError → String
  | .unexpectedEof => "unexpected end of file"
  | .invalidData what => what

abbrev Failure : Type := FailureKind × String

/-- `take(MAX_LINE).read_until(b'\n')`: the line, and what stays in the stream. -/
def readUntil : Nat → List UInt8 → List UInt8 × List UInt8
  | 0, stream => ([], stream)
  | _ + 1, [] => ([], [])
  | n + 1, b :: stream =>
    if b = lineFeed then ([b], stream) else (b :: (readUntil n stream).1, (readUntil n stream).2)

def isLineEnd (c : Char) : Bool := c == '\r' || c == '\n'

/-- A line as text, without its end. -/
def lineText (bytes : List UInt8) : Text := (lossy bytes).rdropWhile isLineEnd

/-- `parse::<u16>`. -/
def parseU16 : Text → Option Nat
  | '+' :: digits => readDecimal 65535 digits
  | digits => readDecimal 65535 digits

/-- `this`: the code that a line starts with. -/
def thisCode (line : Text) : Option Nat :=
  ((cutBytes 3 line).bind fun cut => parseU16 cut.1).filter fun code => 100 ≤ code && code < 600

/-- `part`: what a line adds to the text of a reply with the code `first`. -/
def part (first : Nat) (line : Text) : Text :=
  if thisCode line = some first then ((cutBytes 4 line).map (·.2)).getD [] else line

def addPart (text part : Text) : Text := (if text.isEmpty then text else text ++ [' ']) ++ trim part

/-- The loop of `read_reply`, for at most so many more lines: what it returns, and
what is left in the stream. -/
def readFrom : Nat → Option Nat → Text → List UInt8 → Except IoError (Nat × Text) × List UInt8
  | 0, _, _, stream => (.error (.invalidData "FTP reply too long"), stream)
  | n + 1, code, text, stream =>
    let (bytes, rest) := readUntil maxLine stream
    if bytes.isEmpty then (.error .unexpectedEof, rest)
    else
      let line := lineText bytes
      match code.or (thisCode line) with
      | none => (.error (.invalidData "not an FTP reply"), rest)
      | some first =>
        let text := addPart text (part first line)
        if thisCode line = some first ∧ (encode line)[3]? ≠ some 0x2D then (.ok (first, text), rest)
        else readFrom n (some first) text rest

/-- `read_reply`. -/
def readReply (stream : List UInt8) : Except IoError (Nat × Text) × List UInt8 := readFrom maxLines none [] stream

/-- `Control::reply`, where the reply comes in time. -/
def reply (stream : List UInt8) : Except Failure (Nat × Text) × List UInt8 :=
  match readReply stream with
  | (.ok answer, rest) => (.ok answer, rest)
  | (.error e, rest) => (.error (.transient, "FTP connection failed: " ++ e.display), rest)

/-- A line that holds a line break would be commands of its own. -/
def refuses (line : Text) : Bool := line.any fun c => c == '\r' || c == '\n' || c == '\x00'

/-- `Control::command`, where the server takes what is sent: `stream` is what it
has sent and will send. -/
def command (line : Text) (stream : List UInt8) : Except Failure (Nat × Text) × List UInt8 :=
  if refuses line then (.error (.fatal, "an FTP command cannot hold a line break"), stream) else reply stream

/-- Commands one after another: what each is given, and what it leaves in the stream. -/
def session : List Text → List UInt8 → List (Except Failure (Nat × Text) × List UInt8)
  | [], _ => []
  | line :: lines, stream => command line stream :: session lines (command line stream).2

/-! ## Replies as the standard has them -/

/-- The three digits of a code. -/
def digits (code : Nat) : Text := [code / 100, code / 10 % 10, code % 10].map fun n => Char.ofNat (48 + n)

def codeBytes (code : Nat) : List UInt8 := (digits code).map fun c => UInt8.ofNat c.toNat

/-- A reply: its lines without their ends, `opening` being those before the last one
(none, or a first line with a dash behind the code and any in the middle). -/
structure Reply where
  code : Nat
  code_ge : 100 ≤ code
  code_lt : code < 600
  opening : List (List UInt8)
  text : List UInt8
  first_dash : ∀ line, opening.head? = some line → codeBytes code ++ [0x2D] <+: line
  middle_space : ∀ line ∈ opening.tail, ¬codeBytes code ++ [0x20] <+: line
  length_le : opening.length + 1 ≤ maxLines
  lines_ok : ∀ line ∈ opening ++ [codeBytes code ++ 0x20 :: text], lineFeed ∉ line ∧ line.length + 2 ≤ maxLine

/-- A line with its end. -/
def ended (line : List UInt8) : List UInt8 := line ++ [carriageReturn, lineFeed]

namespace Reply

variable (r : Reply)

def lines : List (List UInt8) := r.opening ++ [codeBytes r.code ++ 0x20 :: r.text]

def bytes : List UInt8 := r.lines.flatMap ended

/-- The text of the reply, as `read_reply` puts it together from its lines. -/
def said : Text :=
  r.lines.foldl (fun text line => addPart text (part r.code (lineText (ended line)))) []

/-- Where a line in the middle starts with the code, a dash follows. -/
def Clear : Prop := ∀ l ∈ r.opening.tail, codeBytes r.code <+: l → l[3]? = some 0x2D

end Reply

/-! ## Lines -/

theorem readUntil_line {line : List UInt8} (hline : lineFeed ∉ line) {n : Nat} (hn : line.length < n) (rest : List UInt8) :
    readUntil n (line ++ lineFeed :: rest) = (line ++ [lineFeed], rest) := by
  induction line generalizing n with
  | nil =>
    cases n with
    | zero => cases hn
    | succ n =>
      show readUntil (n + 1) (lineFeed :: rest) = _
      rw [readUntil, if_pos rfl]
      rfl
  | cons b line ih =>
    obtain ⟨hb, hrest⟩ := not_or.mp (mt List.mem_cons.mpr hline)
    cases n with
    | zero => cases hn
    | succ n =>
      rw [List.cons_append, readUntil, if_neg (Ne.symm hb), ih hrest (Nat.lt_of_succ_lt_succ hn)]
      rfl

/-- A line's text starts with an ASCII character where its bytes do. -/
theorem lineText_eq_cons {c : Char} (hpos : c.toNat ≠ 0) (hlt : c.toNat < 0x80) (hend : isLineEnd c = false)
    {bytes : List UInt8} {more : Text} :
    lineText bytes = c :: more ↔ ∃ rest, bytes = UInt8.ofNat c.toNat :: rest ∧ lineText rest = more := by
  have hkeep (text : Text) : (c :: text).rdropWhile isLineEnd = c :: text.rdropWhile isLineEnd :=
    rdropWhile_append_cons hend [] text
  constructor
  · intro h
    obtain ⟨back, hback, -⟩ := exists_rdropWhile isLineEnd (lossy bytes)
    rw [show (lossy bytes).rdropWhile isLineEnd = c :: more from h, List.cons_append] at hback
    obtain ⟨rest, hbytes, hrest⟩ := (lossy_eq_cons hpos hlt).mp hback
    refine ⟨rest, hbytes, ?_⟩
    rw [lineText, hback, hkeep] at h
    rw [lineText, hrest]
    exact (List.cons.inj h).2
  · rintro ⟨rest, rfl, rfl⟩
    rw [lineText, (lossy_eq_cons hpos hlt).mpr ⟨rest, rfl, rfl⟩, hkeep]
    rfl

/-- The characters a code or a line's dash is of. -/
structure Plain (c : Char) : Prop where
  pos : c.toNat ≠ 0
  lt : c.toNat < 0x80
  notEnd : isLineEnd c = false

theorem plain_of_isDigit {c : Char} (h : c.isDigit = true) : Plain c := by
  have hrange := (isDigit_iff c).mp h
  refine ⟨by omega, by omega, ?_⟩
  rw [isLineEnd, Bool.or_eq_false_iff]
  constructor
  · refine beq_false_of_ne ?_
    rintro rfl
    cases h
  · refine beq_false_of_ne ?_
    rintro rfl
    cases h

theorem lineText_append {front : Text} (hfront : ∀ c ∈ front, Plain c) {bytes : List UInt8} {more : Text} :
    lineText bytes = front ++ more ↔
      ∃ rest, bytes = front.map (fun c => UInt8.ofNat c.toNat) ++ rest ∧ lineText rest = more := by
  induction front generalizing bytes with
  | nil => simp
  | cons c front ih =>
    have hc := hfront c List.mem_cons_self
    rw [List.cons_append, lineText_eq_cons hc.pos hc.lt hc.notEnd]
    constructor
    · rintro ⟨rest, rfl, hrest⟩
      obtain ⟨rest', rfl, hmore⟩ := (ih fun d hd => hfront d (List.mem_cons_of_mem c hd)).mp hrest
      exact ⟨rest', rfl, hmore⟩
    · rintro ⟨rest, rfl, hmore⟩
      exact ⟨front.map (fun c => UInt8.ofNat c.toNat) ++ rest, rfl,
        (ih fun d hd => hfront d (List.mem_cons_of_mem c hd)).mpr ⟨rest, rfl, hmore⟩⟩

/-! ## Codes -/

theorem toNat_digit {n : Nat} (hn : n < 10) : (Char.ofNat (48 + n)).toNat = 48 + n := by
  interval_cases n <;> rfl

theorem isDigit_of_mem_digits {code : Nat} (hcode : code < 1000) {c : Char} (hc : c ∈ digits code) : c.isDigit = true := by
  obtain ⟨n, hn, rfl⟩ := List.mem_map.mp hc
  have hlt : n < 10 := by
    simp only [List.mem_cons, List.not_mem_nil, or_false] at hn
    omega
  rw [isDigit_iff, toNat_digit hlt]
  omega

theorem plain_digits {code : Nat} (hcode : code < 1000) : ∀ c ∈ digits code, Plain c :=
  fun _ hc => plain_of_isDigit (isDigit_of_mem_digits hcode hc)

theorem byteLen_digits {front : Text} (hfront : ∀ c ∈ front, c.isDigit = true) : byteLen front = front.length := by
  refine byteLen_ascii ?_
  intro c hc
  have hrange := (isDigit_iff c).mp (hfront c hc)
  omega

theorem decimal_digits {code : Nat} (hcode : code < 1000) : Decimal (digits code) code where
  nonempty := List.cons_ne_nil _ _
  all _ hc := isDigit_of_mem_digits hcode hc
  value := by
    have hvalue : decimalValue (digits code) =
        10 * (10 * (10 * 0 + ((Char.ofNat (48 + code / 100)).toNat - 48)) + ((Char.ofNat (48 + code / 10 % 10)).toNat - 48)) +
          ((Char.ofNat (48 + code % 10)).toNat - 48) := rfl
    rw [hvalue, toNat_digit (by omega), toNat_digit (by omega), toNat_digit (by omega)]
    omega

/-- Three digits that make a number are its digits. -/
theorem eq_digits {front : Text} {code : Nat} (h : Decimal front code) (hlen : front.length = 3) : front = digits code := by
  obtain ⟨a, b, c, rfl⟩ := List.length_eq_three.mp hlen
  have ha := (isDigit_iff a).mp (h.all a (by simp))
  have hb := (isDigit_iff b).mp (h.all b (by simp))
  have hc := (isDigit_iff c).mp (h.all c (by simp))
  have hvalue : 10 * (10 * (10 * 0 + (a.toNat - 48)) + (b.toNat - 48)) + (c.toNat - 48) = code := h.value
  have hfirst : 48 + code / 100 = a.toNat := by omega
  have hsecond : 48 + code / 10 % 10 = b.toNat := by omega
  have hthird : 48 + code % 10 = c.toNat := by omega
  rw [digits, List.map_cons, List.map_cons, List.map_cons, List.map_nil, hfirst, hsecond, hthird, Char.ofNat_toNat,
    Char.ofNat_toNat, Char.ofNat_toNat]

/-- A sign leaves too few digits for a code. -/
theorem parseU16_eq_some {front : Text} (hlen : byteLen front = 3) {code : Nat} (hcode : 100 ≤ code) (hlt : code < 1000) :
    parseU16 front = some code ↔ front = digits code := by
  have hplain : readDecimal 65535 front = some code ↔ front = digits code := by
    rw [readDecimal_eq_some]
    constructor
    · rintro ⟨hdecimal, -⟩
      refine eq_digits hdecimal ?_
      rw [← byteLen_digits hdecimal.all, hlen]
    · rintro rfl
      exact ⟨decimal_digits hlt, by omega⟩
  unfold parseU16
  split
  next rest =>
    constructor
    · intro h
      obtain ⟨hdecimal, -⟩ := readDecimal_eq_some.mp h
      have htwo : rest.length = 2 := by
        have hsign : byteLen ('+' :: rest) = 1 + byteLen rest := byteLen_cons '+' rest
        rw [← byteLen_digits hdecimal.all]
        omega
      obtain ⟨a, b, rfl⟩ := List.length_eq_two.mp htwo
      have ha := (isDigit_iff a).mp (hdecimal.all a (by simp))
      have hb := (isDigit_iff b).mp (hdecimal.all b (by simp))
      have hvalue : 10 * (10 * 0 + (a.toNat - 48)) + (b.toNat - 48) = code := hdecimal.value
      omega
    · intro h
      have hdigit := isDigit_of_mem_digits hlt (h ▸ List.mem_cons_self)
      cases hdigit
  next => exact hplain

theorem thisCode_eq_some {line : Text} {code : Nat} :
    thisCode line = some code ↔ (100 ≤ code ∧ code < 600) ∧ digits code <+: line := by
  rw [thisCode, Option.filter_eq_some_iff, Option.bind_eq_some_iff, Bool.and_eq_true, decide_eq_true_eq, decide_eq_true_eq]
  constructor
  · rintro ⟨⟨⟨front, back⟩, hcut, hparse⟩, hrange⟩
    obtain ⟨rfl, hlen⟩ := cutBytes_eq_some.mp hcut
    rw [← (parseU16_eq_some hlen hrange.1 (by omega)).mp hparse]
    exact ⟨hrange, List.prefix_append front back⟩
  · rintro ⟨hrange, back, rfl⟩
    have hlen : byteLen (digits code) = 3 := byteLen_digits fun c hc => isDigit_of_mem_digits (by omega) hc
    exact ⟨⟨(digits code, back), cutBytes_eq_some.mpr ⟨rfl, hlen⟩, (parseU16_eq_some hlen hrange.1 (by omega)).mpr rfl⟩, hrange⟩

/-! ## What a line does -/

theorem codeBytes_prefix_ended {code : Nat} (hcode : code < 1000) {line : List UInt8} :
    codeBytes code <+: ended line ↔ codeBytes code <+: line := by
  constructor
  · intro h
    rcases List.prefix_or_prefix_of_prefix h (List.prefix_append line [carriageReturn, lineFeed]) with hline | ⟨rest, hrest⟩
    · exact hline
    · cases rest with
      | nil =>
        rw [List.append_nil] at hrest
        rw [hrest]
      | cons b rest =>
        -- the code would go on into the line's end
        exfalso
        have hstop := h
        rw [← hrest, ended, List.prefix_append_right_inj] at hstop
        obtain ⟨rfl, -⟩ := List.cons_prefix_cons.mp hstop
        have hmem : carriageReturn ∈ codeBytes code := hrest ▸ (by simp)
        obtain ⟨c, hc, hbyte⟩ := List.mem_map.mp hmem
        have hrange := (isDigit_iff c).mp (isDigit_of_mem_digits hcode hc)
        have hvalue := congrArg UInt8.toNat hbyte
        rw [UInt8.toNat_ofNat_of_lt' (show c.toNat < 2 ^ 8 by omega)] at hvalue
        have hreturn : carriageReturn.toNat = 13 := rfl
        omega
  · intro h
    exact h.trans (List.prefix_append line _)

theorem thisCode_ended {code : Nat} (hge : 100 ≤ code) (hlt : code < 600) {line : List UInt8} :
    thisCode (lineText (ended line)) = some code ↔ codeBytes code <+: line := by
  have hplain : ∀ c ∈ digits code, Plain c := plain_digits (by omega)
  rw [thisCode_eq_some, and_iff_right ⟨hge, hlt⟩, ← codeBytes_prefix_ended (by omega)]
  constructor
  · rintro ⟨more, hmore⟩
    obtain ⟨rest, hrest, -⟩ := (lineText_append hplain).mp hmore.symm
    exact ⟨rest, hrest.symm⟩
  · rintro ⟨rest, hrest⟩
    exact ⟨lineText rest, ((lineText_append hplain).mpr ⟨rest, hrest.symm, rfl⟩).symm⟩

theorem encode_plain {front : Text} (hfront : ∀ c ∈ front, Plain c) (more : Text) :
    encode (front ++ more) = front.map (fun c => UInt8.ofNat c.toNat) ++ encode more := by
  induction front with
  | nil => rfl
  | cons c front ih =>
    have hrest := ih fun d hd => hfront d (List.mem_cons_of_mem c hd)
    rw [List.cons_append, encode_ascii (hfront c List.mem_cons_self).lt, hrest]
    rfl

/-- The byte behind the code. -/
theorem dash_ended {code : Nat} (hcode : code < 1000) {l : List UInt8} (hstart : codeBytes code <+: l) :
    (encode (lineText (ended l)))[3]? = some 0x2D ↔ l[3]? = some 0x2D := by
  obtain ⟨rest, rfl⟩ := hstart
  have hthird (bytes : List UInt8) : (codeBytes code ++ bytes)[3]? = bytes.head? := by
    rw [List.getElem?_append_right (Nat.le_refl 3)]
    exact (List.head?_eq_getElem? (l := bytes)).symm
  have htext : lineText (ended (codeBytes code ++ rest)) = digits code ++ lineText (ended rest) :=
    (lineText_append (plain_digits hcode)).mpr ⟨ended rest, List.append_assoc _ _ _, rfl⟩
  have hdash : Plain '-' := ⟨by decide, by decide, by decide⟩
  have hbytes : encode (digits code ++ lineText (ended rest)) = codeBytes code ++ encode (lineText (ended rest)) :=
    encode_plain (plain_digits hcode) _
  rw [htext, hbytes, hthird, hthird]
  have hencode : (encode (lineText (ended rest))).head? = some 0x2D ↔ (lineText (ended rest)).head? = some '-' :=
    head?_encode hdash.pos hdash.lt
  rw [hencode]
  constructor
  · intro h
    obtain ⟨more, hmore⟩ := List.head?_eq_some_iff.mp h
    obtain ⟨after, hafter, -⟩ := (lineText_eq_cons hdash.pos hdash.lt hdash.notEnd).mp hmore
    cases rest with
    | nil => cases hafter
    | cons b rest =>
      rw [ended, List.cons_append] at hafter
      rw [(List.cons.inj hafter).1]
      rfl
  · intro h
    obtain ⟨after, rfl⟩ := List.head?_eq_some_iff.mp h
    have hdashed : lineText (ended (0x2D :: after)) = '-' :: lineText (ended after) :=
      (lineText_eq_cons hdash.pos hdash.lt hdash.notEnd).mpr ⟨ended after, rfl, rfl⟩
    rw [hdashed]
    rfl

/-- A line as a reply may hold it. -/
def LineOk (line : List UInt8) : Prop := lineFeed ∉ line ∧ line.length + 2 ≤ maxLine

theorem readUntil_ended {line : List UInt8} (hline : LineOk line) (rest : List UInt8) :
    readUntil maxLine (ended line ++ rest) = (ended line, rest) := by
  have hfeed : lineFeed ∉ line ++ [carriageReturn] := by
    rw [List.mem_append, not_or]
    exact ⟨hline.1, by decide⟩
  have hlen : (line ++ [carriageReturn]).length < maxLine := by
    rw [List.length_append]
    exact hline.2
  have hread := readUntil_line hfeed hlen rest
  rw [List.append_assoc, List.append_assoc] at hread
  rw [ended, List.append_assoc]
  exact hread

section Loop

variable {code : Nat} (hge : 100 ≤ code) (hlt : code < 600) {l : List UInt8} (hline : LineOk l) {known : Option Nat}
  (hknown : known.or (thisCode (lineText (ended l))) = some code) {n : Nat} {text : Text} {rest : List UInt8}

include hge hlt hline hknown

/-- One line of the loop, its code known. -/
theorem readFrom_line :
    readFrom (n + 1) known text (ended l ++ rest) =
      if codeBytes code <+: l ∧ l[3]? ≠ some 0x2D then
        (.ok (code, addPart text (part code (lineText (ended l)))), rest)
      else readFrom n (some code) (addPart text (part code (lineText (ended l)))) rest := by
  have hne : (ended l).isEmpty = false := by cases l <;> rfl
  rw [readFrom, readUntil_ended hline]
  simp only [hne, Bool.false_eq_true, if_false, hknown, thisCode_ended hge hlt]
  refine if_congr (and_congr_right fun hstart => ?_) rfl rfl
  rw [Ne, Ne, dash_ended (by omega) hstart]

theorem readFrom_goesOn (hgoes : codeBytes code <+: l → l[3]? = some 0x2D) :
    readFrom (n + 1) known text (ended l ++ rest) =
      readFrom n (some code) (addPart text (part code (lineText (ended l)))) rest := by
  rw [readFrom_line hge hlt hline hknown, if_neg]
  rintro ⟨hstart, hnot⟩
  exact hnot (hgoes hstart)

theorem readFrom_stops (hstart : codeBytes code <+: l) (hnot : l[3]? ≠ some 0x2D) :
    readFrom (n + 1) known text (ended l ++ rest) =
      (.ok (code, addPart text (part code (lineText (ended l)))), rest) := by
  rw [readFrom_line hge hlt hline hknown, if_pos ⟨hstart, hnot⟩]

end Loop

/-! ## Whole replies -/

section Lines

variable {code : Nat} (hge : 100 ≤ code) (hlt : code < 600) {lines : List (List UInt8)} (hlines : ∀ l ∈ lines, LineOk l)

include hge hlt hlines

/-- Lines in the middle of a reply are taken as such. -/
theorem readFrom_lines (hclear : ∀ l ∈ lines, codeBytes code <+: l → l[3]? = some 0x2D) {n : Nat} {text : Text}
    {rest : List UInt8} :
    readFrom (lines.length + n) (some code) text (lines.flatMap ended ++ rest) =
      readFrom n (some code) (lines.foldl (fun text l => addPart text (part code (lineText (ended l)))) text) rest := by
  induction lines generalizing text with
  | nil => rw [List.length_nil, Nat.zero_add, List.flatMap_nil, List.nil_append, List.foldl_nil]
  | cons l lines ih =>
    rw [List.length_cons, Nat.add_right_comm, List.flatMap_cons, List.append_assoc,
      readFrom_goesOn hge hlt (hlines l List.mem_cons_self) rfl (hclear l List.mem_cons_self),
      ih (fun l' hl' => hlines l' (List.mem_cons_of_mem l hl')) fun l' hl' => hclear l' (List.mem_cons_of_mem l hl'),
      List.foldl_cons]

/-- One of them taken for the last leaves what is behind it. -/
theorem readFrom_early {bad : List UInt8} (hbad : bad ∈ lines) (hstart : codeBytes code <+: bad)
    (hnot : bad[3]? ≠ some 0x2D) {n : Nat} {text : Text} {rest : List UInt8} :
    rest.length ≤ (readFrom (lines.length + n) (some code) text (lines.flatMap ended ++ rest)).2.length := by
  induction lines generalizing text with
  | nil => cases hbad
  | cons l lines ih =>
    rw [List.length_cons, Nat.add_right_comm, List.flatMap_cons, List.append_assoc]
    by_cases hhere : codeBytes code <+: l ∧ l[3]? ≠ some 0x2D
    · rw [readFrom_stops hge hlt (hlines l List.mem_cons_self) rfl hhere.1 hhere.2, List.length_append]
      exact Nat.le_add_left _ _
    · rw [readFrom_goesOn hge hlt (hlines l List.mem_cons_self) rfl fun hl => not_not.mp fun h => hhere ⟨hl, h⟩]
      refine ih (fun l' hl' => hlines l' (List.mem_cons_of_mem l hl')) ?_
      rcases List.mem_cons.mp hbad with rfl | hbad
      · exact absurd ⟨hstart, hnot⟩ hhere
      · exact hbad

end Lines

namespace Reply

variable (r : Reply)

def lastLine : List UInt8 := codeBytes r.code ++ 0x20 :: r.text

theorem lastLine_ok : LineOk r.lastLine := r.lines_ok _ (by simp [lastLine])

/-- The last line ends it. -/
theorem readFrom_lastLine {known : Option Nat} (hknown : known = none ∨ known = some r.code) (n : Nat) (text : Text)
    (rest : List UInt8) :
    readFrom (n + 1) known text (ended r.lastLine ++ rest) =
      (.ok (r.code, addPart text (part r.code (lineText (ended r.lastLine)))), rest) := by
  have hstart : codeBytes r.code <+: r.lastLine := List.prefix_append _ _
  refine readFrom_stops r.code_ge r.code_lt r.lastLine_ok ?_ hstart ?_
  · rcases hknown with rfl | rfl
    · exact (thisCode_ended r.code_ge r.code_lt).mpr hstart
    · rfl
  · intro h
    cases h

/-- The first line of several gives the code. -/
theorem readFrom_opening {head : List UInt8} {middle : List (List UInt8)} (hopening : r.opening = head :: middle) (n : Nat)
    (rest : List UInt8) :
    readFrom (n + 1) none [] (ended head ++ rest) =
      readFrom n (some r.code) (addPart [] (part r.code (lineText (ended head)))) rest := by
  have hdash : codeBytes r.code ++ [0x2D] <+: head := r.first_dash head (by rw [hopening, List.head?_cons])
  have hstart : codeBytes r.code <+: head := (List.prefix_append _ _).trans hdash
  refine readFrom_goesOn r.code_ge r.code_lt (r.lines_ok head (by simp [hopening])) ?_ fun _ => ?_
  · exact (thisCode_ended r.code_ge r.code_lt).mpr hstart
  · obtain ⟨more, rfl⟩ := hdash
    rfl

theorem lines_eq : r.lines = r.opening ++ [r.lastLine] := rfl

theorem opening_ok : ∀ l ∈ r.opening, LineOk l := fun l hl => r.lines_ok l (List.mem_append_left _ hl)

/-- A clear reply is read whole, and nothing behind it. -/
theorem read_clear (hclear : r.Clear) (further : List UInt8) :
    readReply (r.bytes ++ further) = (.ok (r.code, r.said), further) := by
  have hlen := r.length_le
  rw [bytes, said, lines_eq, List.flatMap_append, List.flatMap_singleton, List.append_assoc, List.foldl_append,
    List.foldl_cons, List.foldl_nil, readReply]
  cases hopening : r.opening with
  | nil => exact r.readFrom_lastLine (.inl rfl) 255 [] further
  | cons head middle =>
    have hmiddle : ∀ l ∈ middle, LineOk l := fun l hl => r.opening_ok l (by simp [hopening, hl])
    have hgoes : ∀ l ∈ middle, codeBytes r.code <+: l → l[3]? = some 0x2D := by
      intro l hl
      exact hclear l (by rwa [hopening])
    obtain ⟨n, hn⟩ : ∃ n, maxLines = middle.length + (n + 1) + 1 := by
      refine ⟨maxLines - middle.length - 2, ?_⟩
      rw [hopening, List.length_cons] at hlen
      omega
    rw [List.flatMap_cons, List.append_assoc, hn, r.readFrom_opening hopening,
      readFrom_lines r.code_ge r.code_lt hmiddle hgoes, r.readFrom_lastLine (.inr rfl), List.foldl_cons]

/-- One that is not clear is not: its last line stays in the stream. -/
theorem read_not_clear (hclear : ¬r.Clear) (further : List UInt8) :
    further.length < (readReply (r.bytes ++ further)).2.length := by
  have hlen := r.length_le
  simp only [Clear, not_forall] at hclear
  obtain ⟨bad, hbad, hstart, hnot⟩ := hclear
  rw [bytes, lines_eq, List.flatMap_append, List.flatMap_singleton, List.append_assoc, readReply]
  cases hopening : r.opening with
  | nil =>
    rw [hopening] at hbad
    cases hbad
  | cons head middle =>
    rw [hopening] at hbad
    have hmiddle : ∀ l ∈ middle, LineOk l := fun l hl => r.opening_ok l (by simp [hopening, hl])
    obtain ⟨n, hn⟩ : ∃ n, maxLines = middle.length + n + 1 := by
      refine ⟨maxLines - middle.length - 1, ?_⟩
      rw [hopening, List.length_cons] at hlen
      omega
    rw [List.flatMap_cons, List.append_assoc, hn, r.readFrom_opening hopening]
    refine Nat.lt_of_lt_of_le ?_ (readFrom_early r.code_ge r.code_lt hmiddle hbad hstart hnot)
    rw [List.length_append, ended, List.length_append]
    exact Nat.lt_add_of_pos_left (Nat.succ_pos _)

/-- A reply is read whole, and nothing behind it, where it is clear. -/
theorem read_iff (further : List UInt8) :
    (∃ text, readReply (r.bytes ++ further) = (.ok (r.code, text), further)) ↔ r.Clear := by
  constructor
  · rintro ⟨text, hread⟩
    by_contra hclear
    have hleft := r.read_not_clear hclear further
    rw [hread] at hleft
    exact Nat.lt_irrefl _ hleft
  · intro hclear
    exact ⟨r.said, r.read_clear hclear further⟩

end Reply

/-! ## Sessions -/

/-- What the server sends for some commands, each with its reply: nothing for one that
is not sent. -/
def answers (turns : List (Text × Reply)) : List UInt8 :=
  turns.flatMap fun turn => if refuses turn.1 then [] else turn.2.bytes

/-- What the commands are to be given, and to leave in the stream. -/
def owed (further : List UInt8) : List (Text × Reply) → List (Except Failure (Nat × Text) × List UInt8)
  | [] => []
  | (line, r) :: turns =>
    (if refuses line then .error (.fatal, "an FTP command cannot hold a line break") else .ok (r.code, r.said),
      answers turns ++ further) :: owed further turns

theorem command_refused {line : Text} (h : refuses line = true) (stream : List UInt8) :
    command line stream = (.error (.fatal, "an FTP command cannot hold a line break"), stream) := if_pos h

theorem command_clear {line : Text} (h : refuses line = false) {r : Reply} (hclear : r.Clear) (rest : List UInt8) :
    command line (r.bytes ++ rest) = (.ok (r.code, r.said), rest) := by
  rw [command, h, if_neg Bool.false_ne_true, reply, r.read_clear hclear]

theorem command_not_clear {line : Text} (h : refuses line = false) {r : Reply} (hclear : ¬r.Clear) (rest : List UInt8) :
    (command line (r.bytes ++ rest)).2 ≠ rest := by
  have hlong := r.read_not_clear hclear rest
  have hleft : (command line (r.bytes ++ rest)).2 = (readReply (r.bytes ++ rest)).2 := by
    rw [command, h, if_neg Bool.false_ne_true, reply]
    rcases readReply (r.bytes ++ rest) with ⟨_ | _, _⟩ <;> rfl
  rw [hleft]
  intro heq
  rw [heq] at hlong
  exact Nat.lt_irrefl _ hlong

/-- Each command is given its own reply, and only that, where all replies are clear. -/
theorem session_iff (further : List UInt8) (turns : List (Text × Reply)) :
    session (turns.map Prod.fst) (answers turns ++ further) = owed further turns ↔
      ∀ turn ∈ turns, refuses turn.1 = false → turn.2.Clear := by
  induction turns with
  | nil => simp [session, owed]
  | cons turn turns ih =>
    obtain ⟨line, r⟩ := turn
    rw [List.forall_mem_cons, ← ih, List.map_cons, session, owed, answers, List.flatMap_cons, List.append_assoc]
    show command line _ :: _ = _ ↔ _
    cases hrefuses : refuses line with
    | true =>
      have hsilent : command line (answers turns ++ further) = _ := command_refused hrefuses _
      simp only [if_true, List.nil_append]
      rw [show turns.flatMap _ ++ further = answers turns ++ further from rfl, hsilent]
      simp
    | false =>
      simp only [Bool.false_eq_true, if_false]
      rw [show turns.flatMap _ ++ further = answers turns ++ further from rfl]
      by_cases hclear : r.Clear
      · rw [command_clear hrefuses hclear]
        simp [hclear]
      · have hleft := command_not_clear hrefuses hclear (answers turns ++ further)
        constructor
        · intro h
          exact absurd (congrArg Prod.snd (List.cons.inj h).1) hleft
        · rintro ⟨hall, -⟩
          exact absurd (hall trivial) hclear

/-- Replies stay in step with the commands where every line in the middle that starts
with the reply's code has a dash behind it. -/
theorem replies_in_step_iff (r : Reply) (turns : List (Text × Reply)) (further : List UInt8) :
    ((∃ text, readReply (r.bytes ++ further) = (.ok (r.code, text), further)) ↔ r.Clear) ∧
      (session (turns.map Prod.fst) (answers turns ++ further) = owed further turns ↔
        ∀ turn ∈ turns, refuses turn.1 = false → turn.2.Clear) :=
  ⟨r.read_iff further, session_iff further turns⟩

/-- A greeting that counts its users. -/
def crowded : Reply where
  code := 220
  code_ge := by decide
  code_lt := by decide
  opening := [encode "220-Hello".toList, encode "2200 users".toList]
  text := encode "Ready".toList
  first_dash := by decide +kernel
  middle_space := by decide +kernel
  length_le := by decide
  lines_ok := by decide +kernel

theorem crowded_cut_short :
    readReply (crowded.bytes ++ []) = (.ok (220, "Hello users".toList), ended (encode "220 Ready".toList)) ∧
      ¬∃ text, readReply (crowded.bytes ++ []) = (.ok (crowded.code, text), []) := by
  have hread : readReply (crowded.bytes ++ []) = (.ok (220, "Hello users".toList), ended (encode "220 Ready".toList)) := by
    decide +kernel
  refine ⟨hread, ?_⟩
  rintro ⟨text, htext⟩
  rw [hread] at htext
  have hleft : ended (encode "220 Ready".toList) = [] := congrArg Prod.snd htext
  exact absurd hleft (by decide +kernel)

end Hyperfetch.Ftp
