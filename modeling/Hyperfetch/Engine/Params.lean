import Hyperfetch.Engine.Disposition

/-!
# The parameters of a Content-Disposition, written and read

`disposition_params` takes one parameter a turn, and each turn leaves less
(`turn_shorter`). Parameters written one behind the other are read back, quoted or
not, past empty ones and ones without a value (`params_of_written`).
-/

namespace Hyperfetch

open Weft

/-! ## Turns -/

/-- One turn of the loop: the parameter it finds, if it finds one, and what is left;
`none` where it returns. -/
def turn (rest : Text) : Option (Option (Text × Text) × Text) :=
  match splitOnce '=' (rest.dropWhile isGap) with
  | none => none
  | some (before, after) =>
    if before.contains ';' then some (none, (rest.dropWhile isGap).dropWhile (· != ';'))
    else some (some (trim before, (paramValue after).1), (paramValue after).2)

/-- The loop, given up after so many turns. -/
def turns : Nat → Text → Option (List (Text × Text))
  | 0, _ => none
  | n + 1, rest =>
    match turn rest with
    | none => some []
    | some (param, left) => (turns n left).map (param.toList ++ ·)

theorem paramsFrom_done {rest : Text} (h : turn rest = none) : paramsFrom rest = [] := by
  unfold turn at h
  rw [paramsFrom]
  split at h
  · rename_i hcut
    rw [hcut]
  · split at h <;> cases h

theorem paramsFrom_turn {rest left : Text} {param : Option (Text × Text)} (h : turn rest = some (param, left)) :
    paramsFrom rest = param.toList ++ paramsFrom left := by
  unfold turn at h
  rw [paramsFrom]
  split at h
  · cases h
  · rename_i before after hcut
    rw [hcut]
    dsimp only
    split at h
    · rename_i hsemi
      cases h
      rw [if_pos hsemi]
      rfl
    · rename_i hsemi
      cases h
      rw [if_neg hsemi]
      rfl

theorem turn_shorter {rest left : Text} {param : Option (Text × Text)} (h : turn rest = some (param, left)) :
    left.length < rest.length := by
  unfold turn at h
  have hgap := (List.dropWhile_suffix (l := rest) isGap).length_le
  split at h
  · cases h
  · rename_i before after hcut
    have heq := (splitOnce_eq_some.mp hcut).1
    split at h
    · cases h
      -- what the gap ends with is no `;`, so at least that goes
      cases hrest : rest.dropWhile isGap with
      | nil =>
        rw [hrest] at heq
        exact absurd heq (by simp)
      | cons c more =>
        have hnot := @head_dropWhile Char isGap rest c (by rw [hrest]; rfl)
        rw [isGap, Bool.or_eq_false_iff] at hnot
        have hc : (c != ';') = true := by
          rw [bne, hnot.1]
          rfl
        have hsuffix := (List.dropWhile_suffix (l := more) (· != ';')).length_le
        rw [hrest, List.length_cons] at hgap
        rw [@List.dropWhile_cons_of_pos Char (· != ';') c more hc]
        omega
    · cases h
      have hvalue := length_paramValue_le after
      have hlen := congrArg List.length heq
      rw [List.length_append, List.length_cons] at hlen
      omega

/-- The loop ends within a turn for each character. -/
theorem turns_eq {rest : Text} {n : Nat} (h : rest.length < n) : turns n rest = some (paramsFrom rest) := by
  induction n generalizing rest with
  | zero => exact absurd h (Nat.not_lt_zero _)
  | succ n ih =>
    rw [turns]
    cases hturn : turn rest with
    | none => rw [paramsFrom_done hturn]
    | some found =>
      obtain ⟨param, left⟩ := found
      have hshorter := turn_shorter hturn
      simp only [ih (show left.length < n by omega), Option.map_some, paramsFrom_turn hturn]

/-! ## Parameters as they are written -/

/-- A name, which every token is. -/
structure Name (name : Text) : Prop where
  nonempty : name ≠ []
  plain : ∀ c ∈ name, c ≠ ';' ∧ c ≠ '=' ∧ isWhite c = false

/-- A value between its quotes: what would end it, and anything else, behind a backslash. -/
inductive Quotes : Text → Text → Prop
  | nil : Quotes [] []
  | plain {c : Char} {value text : Text} : c ≠ '\\' → c ≠ '"' → Quotes value text → Quotes (c :: value) (c :: text)
  | escaped {c : Char} {value text : Text} : Quotes value text → Quotes (c :: value) ('\\' :: c :: text)

/-- A value that may stand as it is. -/
structure PlainValue (value : Text) : Prop where
  noSemicolon : ';' ∉ value
  noQuote : value.head? ≠ some '"'
  trimmed : Trimmed value

/-- A value and the white space around it, quoted or as it is. -/
inductive WrittenValue : Text → Text → Prop
  | quoted {value text before after : Text} : (∀ c ∈ before, isWhite c = true) → (∀ c ∈ after, isWhite c = true) →
      Quotes value text → WrittenValue value (before ++ '"' :: (text ++ '"' :: after))
  | plain {value before after : Text} : (∀ c ∈ before, isWhite c = true) → (∀ c ∈ after, isWhite c = true) →
      PlainValue value → WrittenValue value (before ++ (value ++ after))

/-- What stands behind the type of a disposition: parameters, each behind a `;`, and
between them empty ones and ones without a value. -/
inductive WrittenParams : List (Text × Text) → Text → Prop
  | nil : WrittenParams [] []
  | valueless {piece rest : Text} {params : List (Text × Text)} : ';' ∉ piece → '=' ∉ piece →
      WrittenParams params rest → WrittenParams params (';' :: (piece ++ rest))
  | param {name value before after text rest : Text} {params : List (Text × Text)} : Name name →
      (∀ c ∈ before, isWhite c = true) → (∀ c ∈ after, isWhite c = true) → WrittenValue value text →
      WrittenParams params rest →
      WrittenParams ((name, value) :: params) (';' :: (before ++ (name ++ (after ++ '=' :: (text ++ rest)))))

/-! ## Gaps -/

theorem gap_of_white {c : Char} (h : isWhite c = true) : isGap c = true := by
  rw [isGap, h, Bool.or_true]

/-- What is read does not depend on the gap before it. -/
theorem paramsFrom_gap (rest : Text) : paramsFrom rest = paramsFrom (rest.dropWhile isGap) := by
  have hidem : (rest.dropWhile isGap).dropWhile isGap = rest.dropWhile isGap := List.dropWhile_idempotent isGap rest
  have hturn : turn (rest.dropWhile isGap) = turn rest := by
    unfold turn
    rw [hidem]
  cases h : turn rest with
  | none => rw [paramsFrom_done h, paramsFrom_done (hturn.trans h)]
  | some found =>
    obtain ⟨param, left⟩ := found
    rw [paramsFrom_turn h, paramsFrom_turn (hturn.trans h)]

theorem paramsFrom_skip {gap : Text} (h : ∀ c ∈ gap, isGap c = true) (rest : Text) :
    paramsFrom (gap ++ rest) = paramsFrom rest := by
  have hdrop : (gap ++ rest).dropWhile isGap = rest.dropWhile isGap := List.dropWhile_append_of_pos h
  rw [paramsFrom_gap, hdrop, ← paramsFrom_gap]

/-- What is written begins with its `;`, if anything is. -/
theorem WrittenParams.head {params : List (Text × Text)} {text : Text} (h : WrittenParams params text) :
    text = [] ∨ ∃ rest, text = ';' :: rest := by
  cases h with
  | nil => exact Or.inl rfl
  | valueless _ _ _ => exact Or.inr ⟨_, rfl⟩
  | param _ _ _ _ _ => exact Or.inr ⟨_, rfl⟩

/-! ## One piece -/

/-- A piece without a value is passed over. -/
theorem paramsFrom_valueless {piece rest : Text} (hsemi : ';' ∉ piece) (heq : '=' ∉ piece)
    (hrest : rest = [] ∨ ∃ more, rest = ';' :: more) :
    paramsFrom (piece ++ rest) = paramsFrom rest := by
  obtain ⟨shown, hpiece, hhead⟩ : ∃ shown, piece = piece.takeWhile isGap ++ shown ∧
      ∀ c, shown.head? = some c → isGap c = false :=
    ⟨piece.dropWhile isGap, List.takeWhile_append_dropWhile.symm, fun c hc => head_dropWhile hc⟩
  have hskip : paramsFrom (piece ++ rest) = paramsFrom (shown ++ rest) := by
    rw [hpiece, List.append_assoc]
    exact paramsFrom_skip (fun c hc => List.mem_takeWhile_imp hc) _
  have hsemi' : ';' ∉ shown := by
    intro hin
    rw [hpiece] at hsemi
    exact hsemi (List.mem_append_right _ hin)
  have heq' : '=' ∉ shown := by
    intro hin
    rw [hpiece] at heq
    exact heq (List.mem_append_right _ hin)
  rw [hskip]
  cases shown with
  | nil => rfl
  | cons c more =>
    have hgap : (c :: more ++ rest).dropWhile isGap = c :: more ++ rest :=
      List.dropWhile_cons_of_neg (by rw [hhead c rfl]; exact Bool.false_ne_true)
    cases hcut : splitOnce '=' (c :: more ++ rest) with
    | none =>
      -- no parameter comes any more
      have hdone : turn (c :: more ++ rest) = none := by
        unfold turn
        rw [hgap, hcut]
      have hnot := splitOnce_eq_none.mp hcut
      have hlast : turn rest = none := by
        unfold turn
        have hgone : '=' ∉ rest.dropWhile isGap := by
          intro hin
          exact hnot (List.mem_append_right _ ((List.dropWhile_suffix isGap).subset hin))
        rw [splitOnce_eq_none.mpr hgone]
      rw [paramsFrom_done hdone, paramsFrom_done hlast]
    | some found =>
      obtain ⟨before, after⟩ := found
      obtain ⟨happ, hbefore⟩ := splitOnce_eq_some.mp hcut
      -- the `=` is behind the `;` that ends this piece
      obtain ⟨tail, htail⟩ : ∃ tail, before = c :: more ++ tail := by
        rcases List.append_eq_append_iff.mp happ with ⟨as, hfront, _⟩ | ⟨bs, hfront, hback⟩
        · exact ⟨as, hfront⟩
        · cases bs with
          | nil => exact ⟨[], by rw [List.append_nil]; rw [List.append_nil] at hfront; exact hfront.symm⟩
          | cons b bs =>
            rw [List.cons_append, List.cons.injEq] at hback
            rw [hfront, ← hback.1] at heq'
            exact absurd (List.mem_append_right _ List.mem_cons_self) heq'
      have hrest' : rest = tail ++ '=' :: after := by
        rw [htail, List.append_assoc] at happ
        exact List.append_cancel_left happ
      have hcontains : before.contains ';' = true := by
        rcases hrest with rfl | ⟨next, rfl⟩
        · exact absurd hrest'.symm (by simp)
        · cases tail with
          | nil => cases hrest'
          | cons d tail =>
            rw [List.cons_append, List.cons.injEq] at hrest'
            rw [htail, ← hrest'.1]
            simp
      have hnext : (c :: more ++ rest).dropWhile (· != ';') = rest := by
        apply dropWhile_append
        · intro d hd
          have hne : d ≠ ';' := by
            rintro rfl
            exact hsemi' hd
          simpa using hne
        · intro d hd
          rcases hrest with rfl | ⟨next, rfl⟩
          · cases hd
          · cases hd
            rfl
      have hturn : turn (c :: more ++ rest) = some (none, rest) := by
        unfold turn
        rw [hgap, hcut]
        dsimp only
        rw [if_pos hcontains, hnext]
      rw [paramsFrom_turn hturn]
      rfl

/-- A quoted value is read up to the quote that ends it. -/
theorem Quotes.unquote {value text : Text} (h : Quotes value text) (rest : Text) :
    unquote (text ++ '"' :: rest) = (value, rest) := by
  induction h with
  | nil => rfl
  | @plain c value text hslash hquote _ ih =>
    have hstep : Hyperfetch.unquote (c :: (text ++ '"' :: rest)) =
        (c :: (Hyperfetch.unquote (text ++ '"' :: rest)).1, (Hyperfetch.unquote (text ++ '"' :: rest)).2) := by
      rw [Hyperfetch.unquote]
      · exact hquote
      · intro hnil
        exact absurd hnil hslash
      · intro d more hc
        exact absurd hc hslash
    rw [List.cons_append, hstep, ih]
  | escaped _ ih =>
    show (_ :: (Hyperfetch.unquote (_ ++ '"' :: rest)).1, (Hyperfetch.unquote (_ ++ '"' :: rest)).2) = _
    rw [ih]

theorem semi_gap {rest : Text} (hrest : rest = [] ∨ ∃ more, rest = ';' :: more) : paramsFrom rest.tail = paramsFrom rest := by
  rcases hrest with rfl | ⟨more, rfl⟩
  · rfl
  · exact (@paramsFrom_skip [';'] (by simp [isGap]) more).symm

/-- A value that is not quoted ends before the next `;`. -/
theorem paramValue_plain {after core rest : Text} (hdrop : after.dropWhile isWhite = core ++ rest)
    (hsemi : ';' ∉ core) (hquote : core.head? ≠ some '"') (hrest : rest = [] ∨ ∃ more, rest = ';' :: more) :
    paramValue after = (trim core, rest.tail) := by
  unfold paramValue
  rw [hdrop]
  split
  · rename_i quoted hquoted
    cases core with
    | nil =>
      rcases hrest with rfl | ⟨more, rfl⟩
      · cases hquoted
      · cases hquoted
    | cons c core =>
      rw [List.cons_append, List.cons.injEq] at hquoted
      rw [List.head?_cons, hquoted.1] at hquote
      exact absurd rfl hquote
  · rcases hrest with rfl | ⟨more, rfl⟩
    · have hcut : splitOnce ';' (core ++ []) = none := by
        rw [splitOnce_eq_none, List.append_nil]
        exact hsemi
      rw [hcut, List.append_nil]
      rfl
    · rw [splitOnce_eq_some.mpr ⟨rfl, hsemi⟩]
      rfl

theorem white_ne_semi {c : Char} (h : isWhite c = true) : c ≠ ';' := by
  rintro rfl
  cases h

theorem WrittenValue.read {value text rest : Text} (h : WrittenValue value text)
    (hrest : rest = [] ∨ ∃ more, rest = ';' :: more) :
    (paramValue (text ++ rest)).1 = value ∧ paramsFrom (paramValue (text ++ rest)).2 = paramsFrom rest := by
  cases h with
  | @quoted text before after hbefore hafter hquotes =>
    have hdrop : (before ++ '"' :: (text ++ '"' :: after) ++ rest).dropWhile isWhite =
        '"' :: (text ++ '"' :: (after ++ rest)) := by
      rw [List.append_assoc, List.dropWhile_append_of_pos hbefore]
      simp [isWhite]
    have hvalue : paramValue (before ++ '"' :: (text ++ '"' :: after) ++ rest) = (value, after ++ rest) := by
      unfold paramValue
      rw [hdrop]
      exact hquotes.unquote (after ++ rest)
    rw [hvalue]
    exact ⟨rfl, paramsFrom_skip (fun c hc => gap_of_white (hafter c hc)) rest⟩
  | @plain before after hbefore hafter hplain =>
    -- what is left once the white space before the value is gone
    have hcore : ∃ core, (before ++ (value ++ after) ++ rest).dropWhile isWhite = core ++ rest ∧ ';' ∉ core ∧
        core.head? ≠ some '"' ∧ trim core = value := by
      cases value with
      | nil =>
        refine ⟨[], ?_, List.not_mem_nil, ?_, rfl⟩
        · rw [List.nil_append, dropWhile_append]
          · rfl
          · intro c hc
            rcases List.mem_append.mp hc with hc | hc
            · exact hbefore c hc
            · exact hafter c hc
          · intro c hc
            rcases hrest with rfl | ⟨more, rfl⟩
            · cases hc
            · cases hc
              rfl
        · intro hnone
          cases hnone
      | cons c value =>
        refine ⟨c :: value ++ after, ?_, ?_, hplain.noQuote, ?_⟩
        · rw [List.append_assoc, dropWhile_append hbefore]
          exact fun d hd => hplain.trimmed.1 d hd
        · intro hin
          rcases List.mem_append.mp hin with hin | hin
          · exact hplain.noSemicolon hin
          · exact white_ne_semi (hafter _ hin) rfl
        · have hstrip := @strip_eq Char isWhite [] (c :: value) after (by simp) hplain.trimmed hafter
          exact hstrip
    obtain ⟨core, hdrop, hsemi, hquote, htrim⟩ := hcore
    rw [paramValue_plain hdrop hsemi hquote hrest, htrim]
    exact ⟨rfl, semi_gap hrest⟩

/-! ## All of them -/

theorem paramsFrom_of_written {params : List (Text × Text)} {text : Text} (h : WrittenParams params text) :
    paramsFrom text = params := by
  induction h with
  | nil => exact paramsFrom_done rfl
  | valueless hsemi heq hwritten ih =>
    have hskip := paramsFrom_valueless hsemi heq hwritten.head
    rw [← ih, ← hskip]
    exact @paramsFrom_skip [';'] (by simp [isGap]) _
  | @param name value before after text rest params hname hbefore hafter hvalue hwritten ih =>
    have hgap : ∀ c ∈ ';' :: before, isGap c = true := by
      intro c hc
      rcases List.mem_cons.mp hc with rfl | hc
      · rfl
      · exact gap_of_white (hbefore c hc)
    have hhead : ∀ c, (name ++ (after ++ '=' :: (text ++ rest))).head? = some c → isGap c = false := by
      obtain ⟨c, more, rfl⟩ := List.exists_cons_of_ne_nil hname.nonempty
      intro d hd
      cases hd
      obtain ⟨hsemi, _, hwhite⟩ := hname.plain c List.mem_cons_self
      simp [isGap, hsemi, hwhite]
    have hnotin (d : Char) (hd : ∀ c ∈ name, c ≠ d) (hwhite : isWhite d = false) : d ∉ name ++ after := by
      intro hin
      rcases List.mem_append.mp hin with hin | hin
      · exact hd d hin rfl
      · rw [hafter d hin] at hwhite
        cases hwhite
    have hcut : splitOnce '=' (name ++ (after ++ '=' :: (text ++ rest))) = some (name ++ after, text ++ rest) := by
      rw [splitOnce_eq_some]
      exact ⟨(List.append_assoc _ _ _).symm, hnotin '=' (fun c hc => (hname.plain c hc).2.1) rfl⟩
    have htrim : trim (name ++ after) = name := by
      refine @strip_eq Char isWhite [] name after (by simp) ⟨?_, ?_⟩ hafter
      · intro c hc
        exact (hname.plain c (List.mem_of_head? hc)).2.2
      · intro c hc
        exact (hname.plain c (List.mem_of_getLast? hc)).2.2
    obtain ⟨hread, hleft⟩ := hvalue.read hwritten.head
    have hturn : turn (';' :: (before ++ (name ++ (after ++ '=' :: (text ++ rest))))) =
        some (some (name, value), (paramValue (text ++ rest)).2) := by
      have hdrop := dropWhile_append hgap hhead
      rw [List.cons_append] at hdrop
      unfold turn
      rw [hdrop, hcut]
      dsimp only
      rw [if_neg, htrim, hread]
      intro hcontains
      exact hnotin ';' (fun c hc => (hname.plain c hc).1) rfl (List.contains_iff_mem.mp hcontains)
    rw [paramsFrom_turn hturn, hleft, ih]
    rfl

theorem params_of_written {kind : Text} (hkind : ';' ∉ kind) {params : List (Text × Text)} {text : Text}
    (h : WrittenParams params text) : dispositionParams (kind ++ text) = params := by
  have hread := paramsFrom_of_written h
  unfold dispositionParams
  rcases h.head with rfl | ⟨rest, rfl⟩
  · rw [List.append_nil, splitOnce_eq_none.mpr hkind, ← hread]
    exact (paramsFrom_done rfl).symm
  · rw [splitOnce_eq_some.mpr ⟨rfl, hkind⟩]
    show paramsFrom rest = params
    rw [← hread]
    exact semi_gap (Or.inr ⟨rest, rfl⟩)

/-! ## The file name -/

/-- One turn of the loop of `content_disposition_filename`: the extended name and the
plain one, as far as they are known. -/
def takeName (known : Option Text × Option Text) (param : Text × Text) : Option Text × Option Text :=
  if eqIgnoreAsciiCase param.1 "filename*".toList then (known.1.or (decodeExtValue param.2), known.2)
  else if eqIgnoreAsciiCase param.1 "filename".toList then (known.1, known.2.or (some param.2))
  else known

/-- A parameter of that name, whatever the case. -/
def named (name : String) (param : Text × Text) : Bool := eqIgnoreAsciiCase param.1 name.toList

theorem plain_not_extended {name : Text} (h : eqIgnoreAsciiCase name "filename".toList = true) :
    eqIgnoreAsciiCase name "filename*".toList = false := by
  unfold eqIgnoreAsciiCase at h ⊢
  rw [beq_iff_eq] at h
  rw [h]
  rfl

theorem foldl_takeName (params : List (Text × Text)) (known : Option Text × Option Text) :
    params.foldl takeName known =
      (known.1.or ((params.filter (named "filename*")).filterMap fun p => decodeExtValue p.2).head?,
        known.2.or ((params.filter (named "filename")).map (·.2)).head?) := by
  induction params generalizing known with
  | nil => simp
  | cons param params ih =>
    rw [List.foldl_cons, ih]
    have hstep : takeName known param = if named "filename*" param then (known.1.or (decodeExtValue param.2), known.2)
        else if named "filename" param then (known.1, known.2.or (some param.2)) else known := rfl
    rw [hstep]
    by_cases hextended : named "filename*" param = true
    · have hplain : ¬ named "filename" param = true := by
        intro hplain
        rw [named, plain_not_extended hplain] at hextended
        cases hextended
      rw [if_pos hextended, List.filter_cons_of_pos hextended, List.filter_cons_of_neg hplain]
      cases hdecode : decodeExtValue param.2 with
      | none => simp [hdecode]
      | some value => simp [hdecode]
    · rw [if_neg hextended, List.filter_cons_of_neg hextended]
      by_cases hplain : named "filename" param = true
      · rw [if_pos hplain, List.filter_cons_of_pos hplain]
        simp
      · rw [if_neg hplain, List.filter_cons_of_neg hplain]

/-- The first `filename*` that can be decoded, else the first `filename`. -/
theorem contentDispositionFilename_eq (header : Text) :
    contentDispositionFilename header =
      (((dispositionParams header).filter (named "filename*")).filterMap fun p => decodeExtValue p.2).head?.or
        (((dispositionParams header).filter (named "filename")).map (·.2)).head? := by
  have hsome (name : String) (f : Text → Option Text) (params : List (Text × Text)) :
      (params.findSome? fun p => if eqIgnoreAsciiCase p.1 name.toList then f p.2 else none) =
        ((params.filter (named name)).filterMap fun p => f p.2).head? := by
    induction params with
    | nil => rfl
    | cons param params ih =>
      rw [List.findSome?_cons, ih]
      by_cases hname : named name param = true
      · rw [List.filter_cons_of_pos hname]
        rw [named] at hname
        rw [if_pos hname]
        cases hf : f param.2 with
        | none => simp [hf]
        | some value => simp [hf]
      · rw [List.filter_cons_of_neg hname]
        rw [named] at hname
        rw [if_neg hname]
  unfold contentDispositionFilename
  dsimp only
  rw [hsome, hsome "filename" some, List.filterMap_eq_map']

/-- As the loop of the source takes it. -/
theorem contentDispositionFilename_loop (header : Text) :
    contentDispositionFilename header =
      ((dispositionParams header).foldl takeName (none, none)).1.or
        ((dispositionParams header).foldl takeName (none, none)).2 := by
  rw [contentDispositionFilename_eq, foldl_takeName, Option.none_or, Option.none_or]

/-- What was written is read back, whatever the header the loop ends, and of the
names the first extended one that can be decoded wins, else the first plain one. -/
theorem disposition_read_back :
    (∀ kind params text, ';' ∉ kind → WrittenParams params text → dispositionParams (kind ++ text) = params) ∧
      (∀ rest : Text, turns (rest.length + 1) rest = some (paramsFrom rest)) ∧
      ∀ header, contentDispositionFilename header =
        (((dispositionParams header).filter (named "filename*")).filterMap fun p => decodeExtValue p.2).head?.or
          (((dispositionParams header).filter (named "filename")).map (·.2)).head? :=
  ⟨fun _ _ _ hkind h => params_of_written hkind h, fun _ => turns_eq (Nat.lt_succ_self _), contentDispositionFilename_eq⟩

/-- A quoted value with what ends parameters and values in it, behind a parameter
without a value. -/
theorem disposition_read_back_quoted :
    dispositionParams ("attachment".toList ++ "; foo; filename=\"a;\\\"b\" ".toList) =
      [("filename".toList, "a;\"b".toList)] := by
  have hquotes : Quotes "a;\"b".toList "a;\\\"b".toList :=
    .plain (by decide) (by decide) (.plain (by decide) (by decide) (.escaped (.plain (by decide) (by decide) .nil)))
  have hvalue : WrittenValue "a;\"b".toList "\"a;\\\"b\" ".toList :=
    @WrittenValue.quoted _ _ [] [' '] (by simp) (by simp [isWhite]) hquotes
  have hname : WrittenParams [("filename".toList, "a;\"b".toList)] "; filename=\"a;\\\"b\" ".toList :=
    @WrittenParams.param ['f', 'i', 'l', 'e', 'n', 'a', 'm', 'e'] _ [' '] [] _ [] [] ⟨by simp, by simp [isWhite]⟩
      (by simp [isWhite]) (by simp) hvalue .nil
  exact disposition_read_back.1 _ _ _ (by decide)
    (@WrittenParams.valueless " foo".toList _ _ (by decide) (by decide) hname)

end Hyperfetch
