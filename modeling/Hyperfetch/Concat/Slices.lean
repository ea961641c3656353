import Hyperfetch.Concat.Server

/-!
# Exact slices

What a request asks for, in the forms RFC 9110 gives a single range, and what the concat
server answers it with.
-/

namespace Hyperfetch.Concat

open Weft Weft.Utf8

/-- The part of a stream a request asks for. -/
inductive Asked where
  | whole
  | between (first last : ℕ)
  | onwards (first : ℕ)
  | suffix (count : ℕ)

namespace Asked

/-- Where the part begins in a stream of `total` bytes, and how long it is, if the stream has it. -/
def wanted (total : ℕ) : Asked → Option (ℕ × ℕ)
  | whole => some (0, total)
  | between first last => if first < total then some (first, min last (total - 1) - first + 1) else none
  | onwards first => if first < total then some (first, total - first) else none
  | suffix count => if count = 0 then none else some (total - count, min count total)

def isRange : Asked → Bool
  | whole => false
  | _ => true

/-- What a stream of `total` bytes is served right for. -/
def Served (total : ℕ) : Asked → Prop
  | whole => 0 < total
  | between first _ => first ≤ u64Max ∨ total = 0
  | onwards first => first ≤ u64Max ∨ total = 0
  | suffix count => total ≤ count ∧ (0 < total ∨ count = 0)

end Asked

/-! ## What is asked -/

/-- Optional white space of a header. -/
def Blank (text : Text) : Prop := ∀ c ∈ text, c = ' ' ∨ c = '\t'

/-- A `Range` header of bytes, and its set. -/
def RangeField (line set : Text) : Prop :=
  ∃ name before unit after, line = name ++ ':' :: (before ++ unit ++ '=' :: (set ++ after)) ∧
    name.map Char.toLower = "range".toList ∧ unit.map Char.toLower = "bytes".toList ∧ Blank before ∧ Blank after

/-- The three forms of one range. -/
inductive RangeSet : Text → Asked → Prop where
  | between {front back : Text} {first last : ℕ} (hfirst : Decimal front first) (hlast : Decimal back last)
      (hle : first ≤ last) : RangeSet (front ++ '-' :: back) (.between first last)
  | onwards {front : Text} {first : ℕ} (hfirst : Decimal front first) : RangeSet (front ++ ['-']) (.onwards first)
  | suffix {back : Text} {count : ℕ} (hcount : Decimal back count) : RangeSet ('-' :: back) (.suffix count)

/-- What a request without a body asks for: everything, or what its one `Range` header says. -/
inductive Asks (reqText : Text) : Asked → Prop where
  | whole (hnone : ∀ line ∈ linesOf reqText, isRangeLine line = false) : Asks reqText .whole
  | range {before after : List Text} {line set : Text} {asked : Asked} (hlines : linesOf reqText = before ++ line :: after)
      (hfield : RangeField line set) (hset : RangeSet set asked) (hone : ∀ other ∈ before ++ after, isRangeLine other = false) :
      Asks reqText asked

def IsGet (reqText : Text) : Prop := "GET ".toList <+: (linesOf reqText).head?.getD []

/-- The files' concatenation. -/
def stream (disk : Disk) (files : List String) : List UInt8 := files.flatMap fun f => (disk f).toOption.getD []

/-- The response is the slice asked for under the headers that match it, or says that there is none. -/
def Exact (content : List UInt8) (asked : Asked) (r : Option Response) : Prop :=
  match asked.wanted content.length with
  | none => r = some ⟨some (.unsatisfiable content.length), []⟩
  | some (first, count) =>
    r = some ⟨some (.slice asked.isRange count first (first + count - 1) content.length), (content.drop first).take count⟩

/-! ## What is read of it -/

theorem Blank.isWhite {text : Text} (h : Blank text) : ∀ c ∈ text, isWhite c = true := by
  intro c hc
  rcases h c hc with rfl | rfl
  · rfl
  · rfl

theorem trim_digits {digits after : Text} (hdigits : ∀ c ∈ digits, c.isDigit = true) (hafter : Blank after) :
    trim (digits ++ after) = digits := by
  unfold trim
  cases digits with
  | nil =>
    rw [List.nil_append, List.dropWhile_eq_nil_iff.mpr hafter.isWhite]
    rfl
  | cons c digits =>
    have hhead : isWhite c = false := isWhite_of_isDigit (hdigits c List.mem_cons_self)
    rw [List.cons_append, List.dropWhile_cons_of_neg (by simp [hhead]), List.rdropWhile, ← List.cons_append,
      List.reverse_append, List.dropWhile_append_of_pos (fun a ha => hafter.isWhite a (List.mem_reverse.mp ha))]
    rw [List.dropWhile_eq_self_iff.mpr, List.reverse_reverse]
    intro hlen
    have hlast : isWhite (c :: digits).reverse[0] = false :=
      isWhite_of_isDigit (hdigits _ (List.mem_reverse.mp (List.getElem_mem hlen)))
    rw [hlast]
    exact Bool.false_ne_true

theorem Blank.nil : Blank [] := fun _ hc => absurd hc List.not_mem_nil

theorem Blank.trim {after : Text} (h : Blank after) : trim after = [] :=
  @trim_digits [] after (fun _ hc => absurd hc List.not_mem_nil) h

theorem trim_decimal {digits : Text} {n : ℕ} (h : Decimal digits n) : trim digits = digits := by
  simpa using trim_digits h.all Blank.nil

theorem parseU64_of_decimal {digits : Text} {n : ℕ} (h : Decimal digits n) :
    parseU64 digits = if n ≤ u64Max then some n else none := by
  have hplus : parseU64 digits = readDecimal u64Max digits := by
    unfold parseU64
    split
    · exact absurd List.mem_cons_self (h.not_mem rfl)
    · rfl
  rw [hplus]
  split
  · rename_i hle
    exact readDecimal_eq_some.mpr ⟨h, hle⟩
  · rename_i hgt
    rw [Option.eq_none_iff_forall_ne_some]
    intro m hm
    obtain ⟨hdec, hle⟩ := readDecimal_eq_some.mp hm
    exact hgt (h.value.symm.trans hdec.value ▸ hle)

theorem RangeField.isRangeLine {line set : Text} (h : RangeField line set) : isRangeLine line = true := by
  obtain ⟨name, before, unit, after, rfl, hname, -, -, -⟩ := h
  rw [Concat.isRangeLine, List.isPrefixOf_iff_prefix, List.map_append, hname]
  exact ⟨(before ++ unit ++ '=' :: (set ++ after)).map Char.toLower, rfl⟩

theorem not_mem_of_lower {text lower : Text} {c : Char} (h : text.map Char.toLower = lower) (hc : c.toLower ∉ lower) : c ∉ text := by
  intro hin
  exact hc (h ▸ List.mem_map_of_mem hin)

theorem RangeField.splitOnce {line set : Text} (h : RangeField line set) :
    ∃ front after, Blank after ∧ splitOnce '=' line = some (front, set ++ after) := by
  obtain ⟨name, before, unit, after, rfl, hname, hunit, hbefore, hafter⟩ := h
  refine ⟨name ++ ':' :: (before ++ unit), after, hafter, ?_⟩
  rw [splitOnce_eq_some]
  refine ⟨by simp, ?_⟩
  have hin : '=' ∉ before := by
    intro hc
    rcases hbefore _ hc with hc | hc <;> cases hc
  simp only [List.mem_append, List.mem_cons, not_or]
  exact ⟨not_mem_of_lower hname (by decide), by decide, hin, not_mem_of_lower hunit (by decide)⟩

/-- What the variables are after the one range of a request. -/
def Asked.vars (total : ℕ) : Asked → RangeVars
  | .whole => ⟨0, total - 1, false⟩
  | .between first last => ⟨if first ≤ u64Max then first else 0, min last (total - 1), true⟩
  | .onwards first => ⟨if first ≤ u64Max then first else 0, total - 1, true⟩
  | .suffix count => ⟨0, min count (total - 1), true⟩

theorem rangeEnd_eq {total last : ℕ} (htotal : total ≤ u64Max) {digits : Text} (h : Decimal digits last) :
    (match parseU64 digits with
      | some e => if e < total then e else total - 1
      | none => total - 1) = min last (total - 1) := by
  rw [parseU64_of_decimal h, Nat.min_def]
  by_cases hle : last ≤ u64Max
  · simp only [if_pos hle]
    split_ifs <;> omega
  · simp only [if_neg hle]
    rw [if_neg]
    omega

theorem readLine_range {line set : Text} {asked : Asked} {total : ℕ} (hfield : RangeField line set) (hset : RangeSet set asked)
    (htotal : total ≤ u64Max) : readLine total ⟨0, total - 1, false⟩ line = asked.vars total := by
  obtain ⟨front, after, hafter, hsplit⟩ := hfield.splitOnce
  rw [readLine, if_pos hfield.isRangeLine, hsplit]
  cases hset with
  | @between first back _ _ hfirst hlast hle =>
    have hcut : Weft.splitOnce '-' (first ++ '-' :: back ++ after) = some (first, back ++ after) :=
      splitOnce_eq_some.mpr ⟨by simp, hfirst.not_mem rfl⟩
    simp only [hcut, trim_decimal hfirst, trim_digits hlast.all hafter, Asked.vars, parseU64_of_decimal hfirst, RangeVars.mk.injEq, and_true]
    refine ⟨?_, rangeEnd_eq htotal hlast⟩
    split <;> rfl
  | @onwards first _ hfirst =>
    have hcut : Weft.splitOnce '-' (first ++ ['-'] ++ after) = some (first, after) :=
      splitOnce_eq_some.mpr ⟨by simp, hfirst.not_mem rfl⟩
    simp only [hcut, trim_decimal hfirst, hafter.trim, Asked.vars, parseU64_of_decimal hfirst]
    split <;> rfl
  | @suffix back _ hcount =>
    have hcut : Weft.splitOnce '-' ('-' :: back ++ after) = some ([], back ++ after) :=
      splitOnce_eq_some.mpr ⟨rfl, List.not_mem_nil⟩
    simp only [hcut, trim_digits hcount.all hafter, Asked.vars, RangeVars.mk.injEq, and_true]
    exact ⟨rfl, rangeEnd_eq htotal hcount⟩

theorem Asks.le {reqText : Text} {asked : Asked} (h : Asks reqText asked) :
    ∀ first last, asked = .between first last → first ≤ last := by
  rintro first last rfl
  cases h with
  | range _ _ hset _ =>
    cases hset with
    | between _ _ hle => exact hle

theorem foldl_readLine {total : ℕ} {v : RangeVars} {all : List Text} (h : ∀ line ∈ all, isRangeLine line = false) :
    all.foldl (readLine total) v = v := by
  induction all generalizing v with
  | nil => rfl
  | cons line all ih =>
    obtain ⟨hline, hall⟩ := List.forall_mem_cons.mp h
    rw [List.foldl_cons, readLine, hline, if_neg Bool.false_ne_true]
    exact ih hall

theorem Asks.readRange {reqText : Text} {asked : Asked} {total : ℕ} (h : Asks reqText asked) (htotal : total ≤ u64Max) :
    readRange total reqText = asked.vars total := by
  rw [Concat.readRange]
  cases h with
  | whole hnone => exact foldl_readLine hnone
  | @range before after _ _ _ hlines hfield hset hone =>
    rw [hlines, List.foldl_append, List.foldl_cons, foldl_readLine fun l hl => hone l (List.mem_append_left _ hl),
      readLine_range hfield hset htotal]
    exact foldl_readLine fun l hl => hone l (List.mem_append_right _ hl)

/-! ## What is answered -/

theorem readLine_rangeEnd {total : ℕ} {v : RangeVars} (h : v.rangeEnd ≤ total - 1) (line : Text) :
    (readLine total v line).rangeEnd ≤ total - 1 := by
  unfold readLine
  split
  · split
    · split
      · simp only
        split
        · split
          · omega
          · exact h
        · exact h
      · exact h
    · exact h
  · exact h

/-- Whatever a request says, its range does not end after the stream. -/
theorem readRange_rangeEnd (total : ℕ) (reqText : Text) : (readRange total reqText).rangeEnd ≤ total - 1 := by
  unfold readRange
  have hstart : (RangeVars.mk 0 (total - 1) false).rangeEnd ≤ total - 1 := le_rfl
  generalize RangeVars.mk 0 (total - 1) false = v at hstart ⊢
  induction linesOf reqText generalizing v with
  | nil => exact hstart
  | cons line all ih => exact ih _ (readLine_rangeEnd hstart line)

/-- What the variables are answered with. -/
def RangeVars.answer (v : RangeVars) (content : List UInt8) : Response :=
  if v.rangeStart > v.rangeEnd ∨ v.rangeStart ≥ content.length then ⟨some (.unsatisfiable content.length), []⟩
  else
    ⟨some (.slice v.isRange (v.rangeEnd - v.rangeStart + 1) v.rangeStart v.rangeEnd content.length),
      (content.drop v.rangeStart).take (v.rangeEnd - v.rangeStart + 1)⟩

theorem stream_eq {disk : Disk} {files : List String} {contents : List (List UInt8)} (h : Holds disk files contents) :
    stream disk files = contents.flatten := by
  induction h with
  | nil => rfl
  | cons hf _ ih =>
    rw [stream, List.flatMap_cons, hf, ← stream, ih]
    rfl

theorem Holds.drop {disk : Disk} {files : List String} {contents : List (List UInt8)} (h : Holds disk files contents) (i : ℕ) :
    Holds disk (files.drop i) (contents.drop i) := List.forall₂_drop i h

/-- Every GET is answered with what its variables say, and no subtraction underflows on the way. -/
theorem handleClient_eq (b : BinarySearch) {w : World} (hworks : w.Works) {disk : Disk} {files : List String}
    {state : ServerState} (hstart : start disk files = .ok state) {header : List UInt8} (hget : IsGet (lossy header)) :
    handleClient b disk w state header =
      some ((readRange (stream disk files).length (lossy header)).answer (stream disk files)) := by
  obtain ⟨contents, hholds, rfl, -⟩ := start_eq_ok hstart
  rw [stream_eq hholds]
  obtain ⟨rest, hline⟩ := hget
  have hheader : header.isEmpty = false := by
    rw [List.isEmpty_eq_false_iff]
    rintro rfl
    cases hline
  have hhead : "HEAD".toList.isPrefixOf ((linesOf (lossy header)).head?.getD []) = false := by
    rw [← hline]
    rfl
  have hend := readRange_rangeEnd contents.flatten.length (lossy header)
  simp only [handleClient, RangeVars.answer, hheader, hhead, hworks.takesHead, if_true, Bool.not_true, Bool.false_eq_true,
    if_false]
  generalize readRange contents.flatten.length (lossy header) = v at hend ⊢
  split
  · rfl
  · rename_i hrange
    obtain ⟨hle, hlt⟩ := not_or.mp hrange
    replace hle := Nat.le_of_not_gt hle
    replace hlt := Nat.lt_of_not_ge hlt
    obtain ⟨hidx, hbegin, hfirst⟩ := b.after_part hlt
    generalize b.after (endsFrom 0 contents) v.rangeStart = i at hidx hbegin hfirst ⊢
    have hprev : (0 :: endsFrom 0 contents)[i]?.getD 0 = (contents.take i).flatten.length := by
      rw [endsFrom_getElem?, if_pos hidx.le, Option.getD_some, Nat.zero_add]
    have hcut : contents.flatten = (contents.take i).flatten ++ (contents.drop i).flatten := by
      rw [← List.flatten_append, List.take_append_drop]
    have hlength := congrArg List.length hcut
    rw [List.length_append] at hlength
    have hserve := @serveFiles_eq disk w hworks _ _ (hholds.drop i) (contents.take i).flatten.length
      ⟨v.rangeStart, v.rangeEnd - v.rangeStart + 1, []⟩ (.inr hbegin) (.inr hfirst) (.inr (by simp only; omega))
    have hzip : (files.zip (endsFrom 0 contents)).drop i =
        (files.drop i).zip (endsFrom (contents.take i).flatten.length (contents.drop i)) := by
      rw [List.zip, List.drop_zipWith, endsFrom_drop, Nat.zero_add]
    rw [checkedSub_of_le hle]
    simp only [Option.bind_eq_bind, Option.bind_some, hprev, hzip]
    rw [hserve]
    simp only [Option.bind_some, List.nil_append, Option.pure_def]
    conv_rhs => rw [hcut, List.drop_append, List.drop_of_length_le hbegin, List.nil_append]
    rw [← hcut]

theorem answer_unsatisfiable {v : RangeVars} {content : List UInt8} (h : v.rangeStart > v.rangeEnd ∨ v.rangeStart ≥ content.length) :
    v.answer content = ⟨some (.unsatisfiable content.length), []⟩ := if_pos h

theorem answer_slice {v : RangeVars} {content : List UInt8} (hle : v.rangeStart ≤ v.rangeEnd) (hlt : v.rangeStart < content.length) :
    v.answer content = ⟨some (.slice v.isRange (v.rangeEnd - v.rangeStart + 1) v.rangeStart v.rangeEnd content.length),
      (content.drop v.rangeStart).take (v.rangeEnd - v.rangeStart + 1)⟩ :=
  if_neg (by omega)

/-- A slice is answered with itself. -/
theorem exact_slice {content : List UInt8} {asked : Asked} {first count : ℕ} (hwanted : asked.wanted content.length = some (first, count))
    {v : RangeVars} (hfirst : v.rangeStart = first) (hlast : v.rangeEnd + 1 = first + count) (hrange : v.isRange = asked.isRange)
    (hcount : 0 < count) (hlt : first < content.length) : Exact content asked (some (v.answer content)) := by
  subst hfirst
  have hlen : v.rangeEnd - v.rangeStart + 1 = count := by omega
  have hend : v.rangeEnd = v.rangeStart + count - 1 := by omega
  rw [Exact, hwanted, answer_slice (by omega) hlt, hlen, hrange, hend]

theorem exact_unsatisfiable {content : List UInt8} {asked : Asked} (hwanted : asked.wanted content.length = none) {v : RangeVars} :
    Exact content asked (some (v.answer content)) ↔ v.rangeStart > v.rangeEnd ∨ v.rangeStart ≥ content.length := by
  rw [Exact, hwanted]
  constructor
  · intro h
    by_contra hnot
    obtain ⟨hle, hlt⟩ := not_or.mp hnot
    rw [answer_slice (Nat.le_of_not_gt hle) (Nat.lt_of_not_ge hlt)] at h
    simp at h
  · intro h
    rw [answer_unsatisfiable h]

/-- What is exact of a slice says its first byte and its length. -/
theorem of_exact_slice {content : List UInt8} {asked : Asked} {first count : ℕ} (hwanted : asked.wanted content.length = some (first, count))
    {v : RangeVars} (h : Exact content asked (some (v.answer content))) :
    v.rangeStart = first ∧ v.rangeEnd - v.rangeStart + 1 = count ∧ v.rangeStart < content.length := by
  rw [Exact, hwanted] at h
  by_cases hnot : v.rangeStart > v.rangeEnd ∨ v.rangeStart ≥ content.length
  · rw [answer_unsatisfiable hnot] at h
    simp at h
  · obtain ⟨hle, hlt⟩ := not_or.mp hnot
    rw [answer_slice (Nat.le_of_not_gt hle) (Nat.lt_of_not_ge hlt)] at h
    simp only [Option.some.injEq, Response.mk.injEq, Head.slice.injEq] at h
    exact ⟨h.1.2.2.1, h.1.2.1, Nat.lt_of_not_ge hlt⟩

/-- The variables of a single range are answered as the range wants exactly where it is served. -/
theorem exact_answer_iff {content : List UInt8} {asked : Asked} (hfits : content.length ≤ u64Max)
    (hformed : ∀ first last, asked = .between first last → first ≤ last) :
    Exact content asked (some ((asked.vars content.length).answer content)) ↔ asked.Served content.length := by
  cases asked with
  | whole =>
    constructor
    · intro h
      exact (of_exact_slice rfl h).2.2
    · intro h
      change 0 < content.length at h
      exact exact_slice rfl rfl (by simp only [Asked.vars]; omega) rfl h h
  | between first last =>
    have hle := hformed first last rfl
    by_cases hlt : first < content.length
    · have hwanted : (Asked.between first last).wanted content.length = some (first, min last (content.length - 1) - first + 1) :=
        if_pos hlt
      have hstart : first ≤ u64Max := by omega
      refine iff_of_true (exact_slice hwanted (if_pos hstart) ?_ rfl (Nat.succ_pos _) hlt) (Or.inl hstart)
      simp only [Asked.vars]
      omega
    · have hwanted : (Asked.between first last).wanted content.length = none := if_neg hlt
      rw [exact_unsatisfiable hwanted]
      simp only [Asked.vars, Asked.Served]
      split <;> omega
  | onwards first =>
    by_cases hlt : first < content.length
    · have hwanted : (Asked.onwards first).wanted content.length = some (first, content.length - first) := if_pos hlt
      have hstart : first ≤ u64Max := by omega
      refine iff_of_true (exact_slice hwanted (if_pos hstart) ?_ rfl (by omega) hlt) (Or.inl hstart)
      simp only [Asked.vars]
      omega
    · have hwanted : (Asked.onwards first).wanted content.length = none := if_neg hlt
      rw [exact_unsatisfiable hwanted]
      simp only [Asked.vars, Asked.Served]
      split <;> omega
  | suffix count =>
    by_cases hzero : count = 0
    · -- no last bytes: there is nothing to satisfy, yet one byte is sent of a stream that has any
      have hwanted : (Asked.suffix count).wanted content.length = none := if_pos hzero
      rw [exact_unsatisfiable hwanted]
      simp only [Asked.vars, Asked.Served]
      omega
    · have hwanted : (Asked.suffix count).wanted content.length = some (content.length - count, min count content.length) :=
        if_neg hzero
      constructor
      · intro h
        obtain ⟨hstart, hcount, hlt⟩ := of_exact_slice hwanted h
        simp only [Asked.vars] at hstart hcount hlt
        simp only [Asked.Served]
        omega
      · rintro ⟨hle, hpos⟩
        refine exact_slice hwanted ?_ ?_ rfl (by omega) (by omega)
        · simp only [Asked.vars]
          omega
        · simp only [Asked.vars]
          omega

/-- The concat server answers a GET that asks for everything or for one range with exactly that
slice, whatever sizes its reads return, if and only if the stream is not empty, a first position fits
64 bits, and a suffix is no shorter than the stream. -/
theorem serves_exact_slices_iff (b : BinarySearch) {w : World} (hworks : w.Works) {disk : Disk} {files : List String}
    {state : ServerState} (hstart : start disk files = .ok state) {header : List UInt8} {asked : Asked}
    (hget : IsGet (lossy header)) (hasks : Asks (lossy header) asked) :
    Exact (stream disk files) asked (handleClient b disk w state header) ↔ asked.Served (stream disk files).length := by
  have hfits : (stream disk files).length ≤ u64Max := by
    obtain ⟨contents, hholds, -, hle⟩ := start_eq_ok hstart
    rwa [stream_eq hholds]
  rw [handleClient_eq b hworks hstart hget, hasks.readRange hfits]
  exact exact_answer_iff hfits hasks.le

section

/-- Two files, as a test of the source writes them. -/
def hello : Disk := fun path =>
  if path = "f1" then .ok (encode "Hello ".toList)
  else if path = "f2" then .ok (encode "World!".toList)
  else .error "No such file or directory (os error 2)"

/-- Nothing fails, and every read is a short one. -/
def trickle : World := ⟨true, fun _ => false, fun _ => true, fun _ => some 3, fun _ => true⟩

theorem trickle_works : trickle.Works := ⟨rfl, fun _ => rfl, fun _ => rfl, fun _ => ⟨3, rfl⟩, fun _ => rfl⟩

/-- A request for the part of the stream. -/
def request (part : String) : Text := ("GET /stream HTTP/1.1\r\nRange: bytes=" ++ part ++ "\r\n\r\n").toList

theorem lossy_request (part : String) : lossy (encode (request part)) = request part := by
  have hread := lossy_encode (request part) []
  rwa [List.append_nil, show lossy [] = [] from rfl, List.append_nil] at hread

theorem hello_starts : start hello ["f1", "f2"] = .ok ⟨["f1", "f2"], [6, 12], 12⟩ := by decide

theorem range_field (set : Text) : RangeField ("Range: bytes=".toList ++ set) set :=
  ⟨"Range".toList, [' '], "bytes".toList, [], by simp, rfl, rfl, by simp [Blank], by simp [Blank]⟩

/-- The last five bytes are answered with the first six. -/
theorem suffix_of_hello :
    IsGet (lossy (encode (request "-5"))) ∧ Asks (lossy (encode (request "-5"))) (.suffix 5) ∧
      ¬ Exact (stream hello ["f1", "f2"]) (.suffix 5)
        (handleClient .fromFront hello trickle ⟨["f1", "f2"], [6, 12], 12⟩ (encode (request "-5"))) := by
  have hget : IsGet (lossy (encode (request "-5"))) := by
    rw [lossy_request]
    exact List.isPrefixOf_iff_prefix.mp (by decide)
  have hasks : Asks (lossy (encode (request "-5"))) (.suffix 5) := by
    rw [lossy_request]
    have hset : RangeSet ['-', '5'] (.suffix 5) := .suffix (decimal_toDigits 5)
    exact @Asks.range _ ["GET /stream HTTP/1.1".toList] [[]] _ _ _ (by decide) (range_field ['-', '5']) hset (by decide)
  refine ⟨hget, hasks, ?_⟩
  rw [handleClient_eq .fromFront trickle_works hello_starts hget, hasks.readRange (by decide), exact_answer_iff (by decide) hasks.le]
  exact fun h => absurd h.1 (by decide)

theorem slices_of_hello : Exact (stream hello ["f1", "f2"]) (.between 3 8)
    (handleClient .fromFront hello trickle ⟨["f1", "f2"], [6, 12], 12⟩ (encode (request "3-8"))) := by
  have hget : IsGet (lossy (encode (request "3-8"))) := by
    rw [lossy_request]
    exact List.isPrefixOf_iff_prefix.mp (by decide)
  have hasks : Asks (lossy (encode (request "3-8"))) (.between 3 8) := by
    rw [lossy_request]
    have hset : RangeSet (['3'] ++ '-' :: ['8']) (.between 3 8) := .between (decimal_toDigits 3) (decimal_toDigits 8) (by decide)
    exact @Asks.range _ ["GET /stream HTTP/1.1".toList] [[]] _ _ _ (by decide) (range_field _) hset (by decide)
  exact (serves_exact_slices_iff .fromFront trickle_works hello_starts hget hasks).mpr (Or.inl (by decide))

end

end Hyperfetch.Concat
