import Hyperfetch.Media.Lists

/-!
# The newest of a list of lists

The loop that reads the lists in a list a batch at a time, against the plain expansion: every
list in its place, each entry once, then the newest. `Walk.Inv` is what holds between any two
entries of the outer list.
-/

namespace Hyperfetch.Media

open Weft

variable {C : Crates}

/-! ## The plain expansion -/

/-- What a nested list is replaced by: what it lists, the one video it is, or itself. -/
def expandInner (url : C.Url) : Option Value → List (ListEntry C)
  | some inner =>
    if inner.isPlaylist then
      (listEntries C inner).map fun l =>
        match l with
        | .entry e => e
        | .nested url => ⟨url, none⟩
    else [⟨url, archiveId C inner⟩]
  | none => [⟨url, none⟩]

/-- An entry of the first list, expanded in its place. -/
def expandOne (answer : C.Url → Option Value) : Listed C → List (ListEntry C)
  | .entry e => [e]
  | .nested url => expandInner url (answer url)

/-- Everything expanded, each entry once. -/
def expanded (answer : C.Url → Option Value) (listed : List (Listed C)) : List (ListEntry C) :=
  keepFirst ListEntry.key [] (listed.flatMap (expandOne answer))

/-- The listing without batches and without stopping early. -/
def plainListing (url : C.Url) (kind : ListKind) (latest : Option ℕ) (first : ListRun) (answer : C.Url → Option Value) :
    Option (Except String (String × List (ListEntry C))) :=
  match firstListed url first with
  | none => none
  | some (.error e) => some (.error e)
  | some (.ok (title, listed)) => some (titled title (newest kind latest (expanded answer listed)))

/-- What a run gives for each list of its batch is that list's own answer. -/
def Alone (extract : List C.Url → ListRun) (answer : C.Url → Option Value) : Prop :=
  ∀ batch, (Walk.eachOf (extract batch) batch).map (fun r => r.2.toOption) = batch.map answer

/-! ## The lists among the entries -/

theorem nestedOf_concat (listed : List (Listed C)) (l : Listed C) :
    nestedOf (listed ++ [l]) = match l with
      | .nested list => if list ∈ nestedOf listed then nestedOf listed else nestedOf listed ++ [list]
      | .entry _ => nestedOf listed := by
  rw [nestedOf, List.foldl_append]
  rfl

theorem nestedOf_nodup (listed : List (Listed C)) : (nestedOf listed).Nodup := by
  induction listed using List.reverseRecOn with
  | nil => exact List.nodup_nil
  | append_singleton listed l ih =>
    rw [nestedOf_concat]
    cases l with
    | entry e => exact ih
    | nested list =>
      simp only
      split
      · exact ih
      · rename_i hnew
        refine List.nodup_append.mpr ⟨ih, List.nodup_singleton list, ?_⟩
        rintro a ha b hb rfl
        exact hnew (List.mem_singleton.mp hb ▸ ha)

theorem mem_nestedOf {listed : List (Listed C)} {list : C.Url} : list ∈ nestedOf listed ↔ Listed.nested list ∈ listed := by
  induction listed using List.reverseRecOn with
  | nil => simp [nestedOf]
  | append_singleton listed l ih =>
    rw [nestedOf_concat, List.mem_append, List.mem_singleton]
    cases l with
    | entry e => simp [ih]
    | nested other =>
      simp only [Listed.nested.injEq]
      split
      · rename_i hold
        rw [ih]
        refine (or_iff_left_of_imp ?_).symm
        rintro rfl
        exact ih.mp hold
      · rw [List.mem_append, List.mem_singleton, ih]

theorem nestedOf_begins (front back : List (Listed C)) : nestedOf front <+: nestedOf (front ++ back) := by
  induction back using List.reverseRecOn with
  | nil => simp
  | append_singleton back l ih =>
    rw [← List.append_assoc, nestedOf_concat]
    cases l with
    | entry e => exact ih
    | nested list =>
      simp only
      split
      · exact ih
      · exact ih.trans (List.prefix_append _ _)

/-! ## Adding entries -/

namespace Walk

/-- The keys seen are those of the entries. -/
def Seen (w : Walk C) : Prop := ∀ k, k ∈ w.seen ↔ k ∈ w.entries.map ListEntry.key

theorem Seen.add {w : Walk C} (h : w.Seen) (e : ListEntry C) :
    (w.add e).Seen ∧ (w.add e).entries = w.entries ++ keepFirst ListEntry.key (w.entries.map ListEntry.key) [e] := by
  unfold Walk.add
  split
  · rename_i hseen
    refine ⟨h, ?_⟩
    rw [keepFirst, if_pos ((h e.key).mp hseen), keepFirst, List.append_nil]
  · rename_i hnew
    refine ⟨?_, ?_⟩
    · intro k
      simp only [List.mem_cons, List.map_append, List.mem_append, List.map_cons, List.map_nil, List.not_mem_nil, or_false]
      rw [h k, or_comm]
    · rw [keepFirst, if_neg (fun hin => hnew ((h e.key).mpr hin)), keepFirst]

/-- Adding entries leaves the reading as it is. -/
theorem add_frame (w : Walk C) (e : ListEntry C) :
    (w.add e).read = w.read ∧ (w.add e).found = w.found ∧ (w.add e).readings = w.readings := by
  unfold Walk.add
  split <;> exact ⟨rfl, rfl, rfl⟩

theorem addAll_frame (w : Walk C) (es : List (ListEntry C)) :
    (es.foldl add w).read = w.read ∧ (es.foldl add w).found = w.found ∧ (es.foldl add w).readings = w.readings := by
  induction es generalizing w with
  | nil => exact ⟨rfl, rfl, rfl⟩
  | cons e es ih =>
    obtain ⟨hread, hfound, hreadings⟩ := add_frame w e
    rw [List.foldl_cons, ← hread, ← hfound, ← hreadings]
    exact ih (w.add e)

theorem Seen.all {w : Walk C} (h : w.Seen) (es : List (ListEntry C)) :
    (es.foldl Walk.add w).Seen ∧ (es.foldl Walk.add w).entries = w.entries ++ keepFirst ListEntry.key (w.entries.map ListEntry.key) es := by
  induction es generalizing w with
  | nil => exact ⟨h, (List.append_nil _).symm⟩
  | cons e es ih =>
    obtain ⟨hseen, hentries⟩ := h.add e
    obtain ⟨hall, hrest⟩ := ih hseen
    refine ⟨hall, ?_⟩
    have hcut := @keepFirst_append _ _ _ ListEntry.key (w.entries.map ListEntry.key) [e] es
    rw [List.singleton_append] at hcut
    rw [List.foldl_cons, hrest, hentries, hcut, List.append_assoc]
    congr 2
    -- the keys of what was kept are the keys of what was offered
    refine @keepFirst_congr _ _ _ ListEntry.key _ _ ?_ es
    intro k
    simp only [keepFirst, List.map_append, List.mem_append, List.map_cons, List.map_nil, List.mem_singleton]
    split <;> rename_i hin <;> simp only [List.map_cons, List.map_nil, List.mem_singleton, List.not_mem_nil, or_false]
    · constructor
      · exact Or.inr
      · rintro (rfl | hk)
        · exact hin
        · exact hk
    · exact or_comm

theorem addInner_eq (w : Walk C) (url : C.Url) (inner : Printed) :
    w.addInner url inner = (expandInner url inner.toOption).foldl add w := by
  cases inner with
  | error e => rfl
  | ok inner =>
    simp only [addInner, Except.toOption, expandInner]
    split
    · rw [List.foldl_map]
      congr 1
      funext w l
      cases l <;> rfl
    · rfl

/-! ## Reading a batch -/

theorem keep_eq {answer : C.Url → Option Value} {batch : List C.Url} {results : List (C.Url × Printed)}
    (hlists : results.map Prod.fst = batch) (hresults : results.map (fun r => r.2.toOption) = batch.map answer)
    (found : C.Url → Option Printed) (u : C.Url) :
    (keep found results u).map Except.toOption = if u ∈ batch then some (answer u) else (found u).map Except.toOption := by
  induction results generalizing found batch with
  | nil =>
    subst hlists
    rfl
  | cons r results ih =>
    subst hlists
    rw [List.map_cons, List.map_cons, List.map_cons, List.cons.injEq] at hresults
    obtain ⟨hr, hrest⟩ := hresults
    have hnext := ih rfl hrest (Function.update found r.1 (some r.2))
    rw [keep] at hnext ⊢
    rw [List.foldl_cons, hnext, List.map_cons]
    by_cases hin : u ∈ results.map Prod.fst
    · rw [if_pos hin, if_pos (List.mem_cons_of_mem r.1 hin)]
    · rw [if_neg hin]
      by_cases heq : u = r.1
      · subst heq
        rw [Function.update_self, if_pos List.mem_cons_self, Option.map_some, hr]
      · rw [Function.update_of_ne heq, if_neg (List.not_mem_cons_of_ne_of_not_mem heq hin)]

theorem eachOf_lists (run : ListRun) (batch : List C.Url) : (eachOf run batch).map Prod.fst = batch := by
  cases run with
  | error e => simp [eachOf, Function.comp_def]
  | ok each =>
    simp only [eachOf]
    induction batch generalizing each with
    | nil => cases each <;> rfl
    | cons list batch ih =>
      cases each with
      | nil => rw [eachOf.go, List.map_cons, ih]
      | cons inner each => rw [eachOf.go, List.map_cons, ih]

/-- What holds when the loop has come past `done`, for the lists `nested` of the whole list. -/
structure Inv (answer : C.Url → Option Value) (kind : ListKind) (latest : Option ℕ) (nested : List C.Url) (done : List (Listed C))
    (w : Walk C) : Prop where
  entries : w.entries = expanded answer done
  seen : w.Seen
  met : (nestedOf done).length ≤ w.read
  within : w.read ≤ nested.length
  /-- The answers that wait are those of the lists read whose place has not come. -/
  found : ∀ u, (w.found u).map Except.toOption = if u ∈ nested.take w.read ∧ u ∉ nestedOf done then some (answer u) else none
  readings : w.readings.flatMap Reading.batch = nested.take w.read
  early : ∀ r ∈ w.readings, ∀ n, kind = .uploads → latest = some n → r.had < n

section

variable {extract : List C.Url → ListRun} {answer : C.Url → Option Value} {kind : ListKind} {latest : Option ℕ}
  {nested : List C.Url} {done : List (Listed C)} {w : Walk C}

theorem Inv.init (nested : List C.Url) : Inv answer kind latest nested [] ⟨0, fun _ => none, [], [], []⟩ where
  entries := rfl
  seen := fun _ => Iff.rfl
  met := le_rfl
  within := Nat.zero_le _
  found := by simp
  readings := by simp
  early := by simp

/-- A batch holds a list at least, if any is left. -/
theorem readBatch_eq (extract : List C.Url → ListRun) (nested : List C.Url) (kind : ListKind) (latest : Option ℕ) (w : Walk C) :
    ∃ count, 1 ≤ count ∧ ∃ batch, batch = (nested.drop w.read).take count ∧ w.readBatch extract nested kind latest =
      { w with
        read := w.read + batch.length
        found := keep w.found (eachOf (extract batch) batch)
        readings := w.readings ++ [⟨batch, w.entries.length⟩] } :=
  ⟨_, le_max_left 1 _, _, rfl, rfl⟩

/-- A batch read while fewer than the newest are there. -/
theorem Inv.readBatch (h : Inv answer kind latest nested done w) (halone : Alone extract answer) (hnodup : nested.Nodup)
    (hdone : nestedOf done <+: nested) (hmore : ∀ n, kind = .uploads → latest = some n → w.entries.length < n) :
    Inv answer kind latest nested done (w.readBatch extract nested kind latest) := by
  obtain ⟨count, -, batch, hbatch, heq⟩ := readBatch_eq extract nested kind latest w
  rw [heq]
  have hsplit : nested.take (w.read + batch.length) = nested.take w.read ++ batch := by
    rw [List.take_add, hbatch, List.length_take, List.take_eq_take_min]
    simp
  have hlen : w.read + batch.length ≤ nested.length := by
    have := h.within
    rw [hbatch, List.length_take, List.length_drop]
    omega
  refine ⟨h.entries, h.seen, h.met.trans (Nat.le_add_right _ _), hlen, ?_, ?_, ?_⟩
  · intro u
    simp only
    rw [keep_eq (eachOf_lists _ batch) (halone batch), h.found u, hsplit]
    by_cases hin : u ∈ batch
    · -- what is read now has not been met, since all that was met was read before
      have hnew : u ∉ nestedOf done := by
        intro hmet
        have hold : u ∈ nested.take w.read := ((List.prefix_take_iff.mpr ⟨hdone, h.met⟩).subset hmet)
        have hapart : (nested.take w.read ++ batch).Nodup := hsplit ▸ hnodup.sublist (List.take_sublist _ _)
        exact (List.nodup_append.mp hapart).2.2 u hold u hin rfl
      rw [if_pos hin, if_pos ⟨List.mem_append_right _ hin, hnew⟩]
    · simp only [List.mem_append, hin, or_false, if_false]
  · simp only [List.flatMap_append, List.flatMap_cons, List.flatMap_nil, List.append_nil]
    rw [h.readings, hsplit]
  · intro r hr n hkind hn
    rcases List.mem_append.mp hr with hr | hr
    · exact h.early r hr n hkind hn
    · rw [List.mem_singleton.mp hr]
      exact hmore n hkind hn

theorem mem_take_of_begins {α : Type} {front all : List α} {a : α} (h : front ++ [a] <+: all) {n : ℕ} (hn : front.length < n) :
    a ∈ all.take n := by
  have hlen : (front ++ [a]).length ≤ n := by
    rw [List.length_append]
    exact hn
  exact (List.prefix_take_iff.mpr ⟨h, hlen⟩).subset (List.mem_append_right front List.mem_cons_self)

theorem expanded_concat (answer : C.Url → Option Value) (done : List (Listed C)) (l : Listed C) :
    expanded answer (done ++ [l]) =
      expanded answer done ++ keepFirst ListEntry.key ((expanded answer done).map ListEntry.key) (expandOne answer l) := by
  rw [expanded, expanded, List.flatMap_append, keepFirst_append, List.flatMap_singleton]
  congr 1
  refine keepFirst_congr ?_ _
  intro k
  rw [List.append_nil, mem_map_keepFirst List.not_mem_nil]

theorem Inv.entry (h : Inv answer kind latest nested done w) (e : ListEntry C) :
    Inv answer kind latest nested (done ++ [.entry e]) (w.add e) := by
  obtain ⟨hread, hfound, hreadings⟩ := add_frame w e
  obtain ⟨hseen, hentries⟩ := h.seen.add e
  have hnested : nestedOf (done ++ [Listed.entry e]) = nestedOf done := nestedOf_concat done (.entry e)
  constructor
  · rw [hentries, expanded_concat, ← h.entries]
    rfl
  · exact hseen
  · rw [hnested, hread]
    exact h.met
  · rw [hread]
    exact h.within
  · rw [hnested, hread, hfound]
    exact h.found
  · rw [hreadings, hread]
    exact h.readings
  · rw [hreadings]
    exact h.early

/-- A list that is listed twice was added the first time. -/
theorem Inv.again (h : Inv answer kind latest nested done w) {url : C.Url} (hmet : url ∈ nestedOf done) :
    Inv answer kind latest nested (done ++ [.nested url]) w := by
  have hnested : nestedOf (done ++ [Listed.nested url]) = nestedOf done := (nestedOf_concat done (.nested url)).trans (if_pos hmet)
  refine ⟨?_, h.seen, hnested ▸ h.met, h.within, hnested ▸ h.found, h.readings, h.early⟩
  rw [expanded_concat, keepFirst_eq_nil, List.append_nil]
  · exact h.entries
  · intro e he
    rw [expanded, mem_map_keepFirst List.not_mem_nil]
    exact List.mem_map_of_mem (List.mem_flatMap.mpr ⟨.nested url, mem_nestedOf.mp hmet, he⟩)

/-- The first place of a list that was read: its answer is taken and added. -/
theorem Inv.took (h : Inv answer kind latest nested done w) {url : C.Url}
    (hnext : nestedOf (done ++ [.nested url]) <+: nested) (hnew : url ∉ nestedOf done) (hread : url ∈ nested.take w.read) :
    ∃ inner, w.found url = some inner ∧ Inv answer kind latest nested (done ++ [.nested url])
      ({ w with found := Function.update w.found url none }.addInner url inner) := by
  have hnested : nestedOf (done ++ [Listed.nested url]) = nestedOf done ++ [url] :=
    (nestedOf_concat done (.nested url)).trans (if_neg hnew)
  have hurl := h.found url
  rw [if_pos ⟨hread, hnew⟩] at hurl
  obtain ⟨inner, hinner, hanswer⟩ := Option.map_eq_some_iff.mp hurl
  refine ⟨inner, hinner, ?_⟩
  rw [addInner_eq, hanswer]
  obtain ⟨hr, hf, hrs⟩ := addAll_frame { w with found := Function.update w.found url none } (expandInner url (answer url))
  obtain ⟨hseen, hentries⟩ := Seen.all (w := { w with found := Function.update w.found url none }) h.seen (expandInner url (answer url))
  constructor
  · rw [hentries, expanded_concat, ← h.entries]
    rfl
  · exact hseen
  · rw [hr, hnested, List.length_append, List.length_singleton]
    -- the place of the list among those read is the next one
    rw [hnested] at hnext
    obtain ⟨more, rfl⟩ := hnext
    by_contra hlt
    have hall : w.read = (nestedOf done).length := by
      have := h.met
      simp only at hlt
      omega
    rw [hall, List.append_assoc, List.take_left] at hread
    exact hnew hread
  · rw [hr]
    exact h.within
  · intro u
    rw [hf, hr, hnested]
    simp only
    by_cases heq : u = url
    · subst heq
      rw [Function.update_self, if_neg]
      · rfl
      · simp
    · rw [Function.update_of_ne heq]
      simp only [List.mem_append, List.mem_singleton, heq, or_false]
      exact h.found u
  · rw [hrs, hr]
    exact h.readings
  · rw [hrs]
    exact h.early

/-- When a list's place has come it was read before, or it is read now. -/
theorem Inv.ready (h : Inv answer kind latest nested done w) (halone : Alone extract answer) (hnodup : nested.Nodup) {url : C.Url}
    (hnext : nestedOf (done ++ [.nested url]) <+: nested)
    (hmore : ∀ n, kind = .uploads → latest = some n → w.entries.length < n) :
    ∃ w', w' = (if w.read < nested.length ∧ (w.found url).isNone then w.readBatch extract nested kind latest else w) ∧
      Inv answer kind latest nested done w' ∧ url ∈ nested.take w'.read := by
  have hdone : nestedOf done <+: nested := (nestedOf_begins done [.nested url]).trans hnext
  have hmem : url ∈ nested := by
    refine hnext.subset ?_
    rw [mem_nestedOf]
    simp
  refine ⟨_, rfl, ?_⟩
  by_cases hread : url ∈ nested.take w.read
  · split
    · refine ⟨h.readBatch halone hnodup hdone hmore, ?_⟩
      obtain ⟨_, -, batch, -, heq⟩ := readBatch_eq extract nested kind latest w
      rw [heq, List.take_add]
      exact List.mem_append_left _ hread
    · exact ⟨h, hread⟩
  · have hnew : url ∉ nestedOf done := by
      intro hmet
      exact hread ((List.prefix_take_iff.mpr ⟨hdone, h.met⟩).subset hmet)
    have hnone : w.found url = none := by
      have hurl := h.found url
      rw [if_neg (fun hin => hread hin.1)] at hurl
      exact Option.map_eq_none_iff.mp hurl
    have hlt : w.read < nested.length := by
      refine lt_of_le_of_ne h.within ?_
      intro hall
      rw [hall, List.take_length] at hread
      exact hread hmem
    have hnested : nestedOf (done ++ [Listed.nested url]) = nestedOf done ++ [url] :=
      (nestedOf_concat done (.nested url)).trans (if_neg hnew)
    rw [hnested] at hnext
    -- it is the first of those not read yet
    have hplace : w.read ≤ (nestedOf done).length := by
      by_contra hgt
      exact hread (mem_take_of_begins hnext (Nat.lt_of_not_ge hgt))
    rw [if_pos ⟨hlt, by rw [hnone]; rfl⟩]
    refine ⟨h.readBatch halone hnodup hdone hmore, ?_⟩
    obtain ⟨count, hcount, batch, hbatch, heq⟩ := readBatch_eq extract nested kind latest w
    have hlen : 1 ≤ batch.length := by
      rw [hbatch, List.length_take, List.length_drop]
      omega
    rw [heq]
    refine mem_take_of_begins hnext ?_
    have := h.met
    simp only
    omega

theorem walk_stop {l : Listed C} {rest : List (Listed C)} (hstop : kind = .uploads ∧ latest.any (· ≤ w.entries.length)) :
    Walk.walk extract nested kind latest (l :: rest) w = w := by
  cases l <;> exact if_pos hstop

theorem walk_entry {e : ListEntry C} {rest : List (Listed C)} (hgo : ¬ (kind = .uploads ∧ latest.any (· ≤ w.entries.length))) :
    Walk.walk extract nested kind latest (.entry e :: rest) w = Walk.walk extract nested kind latest rest (w.add e) :=
  if_neg hgo

theorem walk_nested {url : C.Url} {rest : List (Listed C)} {w' : Walk C} (hgo : ¬ (kind = .uploads ∧ latest.any (· ≤ w.entries.length)))
    (hw' : w' = if w.read < nested.length ∧ (w.found url).isNone then w.readBatch extract nested kind latest else w) :
    Walk.walk extract nested kind latest (.nested url :: rest) w =
      match w'.found url with
      | none => Walk.walk extract nested kind latest rest w'
      | some inner =>
        Walk.walk extract nested kind latest rest ({ w' with found := Function.update w'.found url none }.addInner url inner) := by
  subst hw'
  exact if_neg hgo

/-- The loop from any point on: it comes to the end, or stops with the newest it wants. -/
theorem Inv.walk (halone : Alone extract answer) {listed : List (Listed C)} (hnested : nested = nestedOf listed) {rest : List (Listed C)}
    (hlisted : done ++ rest = listed) (h : Inv answer kind latest nested done w) :
    ∃ done' rest', done' ++ rest' = listed ∧ Inv answer kind latest nested done' (walk extract nested kind latest rest w) ∧
      (rest' = [] ∨ kind = .uploads ∧ ∃ n, latest = some n ∧ n ≤ (walk extract nested kind latest rest w).entries.length) := by
  induction rest generalizing done w with
  | nil => exact ⟨done, [], hlisted, h, .inl rfl⟩
  | cons l rest ih =>
    have hsplit : (done ++ [l]) ++ rest = listed := by
      rw [List.append_assoc]
      exact hlisted
    by_cases hstop : kind = .uploads ∧ latest.any (· ≤ w.entries.length)
    · rw [walk_stop hstop]
      obtain ⟨n, hn, hle⟩ := (Option.any_eq_true _ _).mp hstop.2
      exact ⟨done, l :: rest, hlisted, h, .inr ⟨hstop.1, n, hn, of_decide_eq_true hle⟩⟩
    · have hmore : ∀ n, kind = .uploads → latest = some n → w.entries.length < n := by
        intro n hkind hn
        by_contra hle
        refine hstop ⟨hkind, ?_⟩
        rw [hn]
        exact decide_eq_true (Nat.le_of_not_lt hle)
      cases l with
      | entry e =>
        rw [walk_entry hstop]
        exact ih hsplit (h.entry e)
      | nested url =>
        have hnext : nestedOf (done ++ [.nested url]) <+: nested := by
          rw [hnested, ← hsplit]
          exact nestedOf_begins _ rest
        obtain ⟨w', hw', h', hread⟩ := h.ready halone (hnested ▸ nestedOf_nodup listed) hnext hmore
        rw [walk_nested hstop hw']
        by_cases hmet : url ∈ nestedOf done
        · have hnone : w'.found url = none := by
            have hurl := h'.found url
            rw [if_neg (fun hin => hin.2 hmet)] at hurl
            exact Option.map_eq_none_iff.mp hurl
          simp only [hnone]
          exact ih hsplit (h'.again hmet)
        · obtain ⟨inner, hinner, htook⟩ := h'.took hnext hmet hread
          simp only [hinner]
          exact ih hsplit htook

end

end Walk

/-- Reading lazily what is listed first does not change the newest of it. -/
theorem newest_walk {extract : List C.Url → ListRun} {answer : C.Url → Option Value} (halone : Alone extract answer)
    (kind : ListKind) (latest : Option ℕ) (listed : List (Listed C)) :
    let w := Walk.walk extract (nestedOf listed) kind latest listed ⟨0, fun _ => none, [], [], []⟩
    newest kind latest w.entries = newest kind latest (expanded answer listed) ∧ (w.readings.flatMap Reading.batch).Nodup ∧
      ∀ r ∈ w.readings, ∀ n, kind = .uploads → latest = some n → r.had < n := by
  obtain ⟨done, rest, hlisted, hinv, hend⟩ :=
    Walk.Inv.walk halone rfl (List.nil_append listed) (@Walk.Inv.init C answer kind latest (nestedOf listed))
  simp only
  refine ⟨?_, ?_, hinv.early⟩
  · rw [hinv.entries]
    rcases hend with rfl | ⟨rfl, n, rfl, hn⟩
    · rw [← hlisted, List.append_nil]
    · -- the newest uploads are among what was expanded before the loop stopped
      rw [hinv.entries] at hn
      rw [expanded] at hn
      rw [← hlisted, newest, newest, expanded, expanded, List.flatMap_append, keepFirst_append,
        List.take_append_of_le_length hn]
  · rw [hinv.readings]
    exact (nestedOf_nodup listed).sublist (List.take_sublist _ _)

/-- Every nested list having its own answer, the lists in a list are read at most once each, none of
them when the newest uploads are there, and the result is the plain listing's. -/
theorem lazy_listing_exact (url : C.Url) (kind : ListKind) (latest : Option ℕ) (extract : List C.Url → Option (ListKind × ℕ) → ListRun)
    (answer : C.Url → Option Value) (halone : Alone (fun batch => extract batch none) answer) :
    (listEntriesOf url kind latest extract).1 =
        plainListing url kind latest (extract [url] ((latest.filter fun _ => kind ≠ .ranked).map fun n => (kind, n))) answer ∧
      ((listEntriesOf url kind latest extract).2.flatMap Reading.batch).Nodup ∧
      ∀ r ∈ (listEntriesOf url kind latest extract).2, ∀ n, kind = .uploads → latest = some n → r.had < n := by
  unfold listEntriesOf plainListing
  simp only
  cases firstListed url (extract [url] ((latest.filter fun _ => kind ≠ .ranked).map fun n => (kind, n))) with
  | none => exact ⟨rfl, List.nodup_nil, by simp⟩
  | some listing =>
    cases listing with
    | error e => exact ⟨rfl, List.nodup_nil, by simp⟩
    | ok found =>
      obtain ⟨title, listed⟩ := found
      obtain ⟨hnewest, hnodup, hearly⟩ := newest_walk halone kind (latest.filter fun _ => kind ≠ .ranked) listed
      have hlatest : newest kind (latest.filter fun _ => kind ≠ .ranked) (expanded answer listed) =
          newest kind latest (expanded answer listed) := by
        cases kind <;> cases latest <;> rfl
      refine ⟨?_, hnodup, ?_⟩
      · simp only [hnewest, hlatest]
      · intro r hr n hkind hn
        refine hearly r hr n hkind ?_
        rw [hn, hkind]
        rfl

/-- Runs that print every link's own answer. -/
theorem alone_each (site : C.Url → Printed) : Alone (fun batch => .ok (batch.map site)) fun u => (site u).toOption := by
  intro batch
  simp only [Walk.eachOf]
  induction batch with
  | nil => rfl
  | cons u batch ih => rw [List.map_cons, Walk.eachOf.go, List.map_cons, ih, List.map_cons]

section

/-- An artist's page and an album on it. -/
def artist : Crates where
  Url := String
  decEq := inferInstance
  parse s := if s ∈ ["https://forss.bandcamp.com/music", "https://forss.bandcamp.com/album/soulhack"] then some s else none
  asStr := id
  scheme _ := "https"
  hostStr _ := some "forss.bandcamp.com"
  pathSegments s := some (if s = "https://forss.bandcamp.com/music" then ["music"] else ["album", "soulhack"])
  queryPairs _ := []
  toLowercase s := s.map Char.toLower

def artistSite (url : String) : Printed :=
  if url = "https://forss.bandcamp.com/music" then
    .ok (.object [("_type", .string "playlist"), ("title", .string "Discography of forss"),
      ("entries", .array [.object [("url", .string "https://forss.bandcamp.com/album/soulhack")]])])
  else .error "HTTP Error 404: Not Found"

theorem lazy_listing_of_artist :
    (listEntriesOf (C := artist) "https://forss.bandcamp.com/music" .uploads (some 1) fun batch _ => .ok (batch.map artistSite)).1 =
      plainListing (C := artist) "https://forss.bandcamp.com/music" .uploads (some 1)
        (.ok [artistSite "https://forss.bandcamp.com/music"]) fun u => (artistSite u).toOption :=
  (lazy_listing_exact (C := artist) "https://forss.bandcamp.com/music" .uploads (some 1) (fun batch _ => .ok (batch.map artistSite)) _
    (@alone_each artist artistSite)).1

end

end Hyperfetch.Media
