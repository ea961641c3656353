import Mathlib.Tactic

/-!
# A log of writes and marks

What is done to a file, in order: data written at a place, and places marked as
good. A log is `Honest` if each place was written before it was marked; honest
logs one after the other are honest. `replay` is what the writes make of a file:
a place that none of them wrote keeps what it held, and any other holds what the
last of them wrote there.
-/

namespace Weft

variable {α : Type*}

inductive LogEvent (α : Type*)
  | wrote (offset : Nat) (data : List α)
  | marked (first last : Nat)
  deriving DecidableEq, Repr

namespace LogEvent

def Writes (i : Nat) : LogEvent α → Prop
  | wrote offset data => offset ≤ i ∧ i < offset + data.length
  | marked _ _ => False

def Marks (i : Nat) : LogEvent α → Prop
  | wrote _ _ => False
  | marked first last => first ≤ i ∧ i ≤ last

/-- It writes nothing outside the places from `first` to before `after`. -/
def Within (first after : Nat) : LogEvent α → Prop
  | wrote offset data => first ≤ offset ∧ offset + data.length ≤ after
  | marked _ _ => True

theorem Within.writes {first after i : Nat} {e : LogEvent α} (h : e.Within first after) (hi : e.Writes i) :
    first ≤ i ∧ i < after := by
  cases e with
  | wrote offset data => exact ⟨h.1.trans hi.1, hi.2.trans_le h.2⟩
  | marked => exact hi.elim

theorem Within.mono {first first' after after' : Nat} {e : LogEvent α} (h : e.Within first after)
    (hfirst : first' ≤ first) (hafter : after ≤ after') : e.Within first' after' := by
  cases e with
  | wrote offset data => exact ⟨hfirst.trans h.1, h.2.trans hafter⟩
  | marked => trivial

end LogEvent

def Written (log : List (LogEvent α)) (i : Nat) : Prop := ∃ e ∈ log, e.Writes i

def Marked (log : List (LogEvent α)) (i : Nat) : Prop := ∃ e ∈ log, e.Marks i

@[simp] theorem written_nil (i : Nat) : ¬Written ([] : List (LogEvent α)) i := by simp [Written]

@[simp] theorem written_cons {e : LogEvent α} {log : List (LogEvent α)} {i : Nat} :
    Written (e :: log) i ↔ e.Writes i ∨ Written log i := by simp [Written]

@[simp] theorem written_append {xs ys : List (LogEvent α)} {i : Nat} :
    Written (xs ++ ys) i ↔ Written xs i ∨ Written ys i := by simp [Written, or_and_right, exists_or]

@[simp] theorem marked_nil (i : Nat) : ¬Marked ([] : List (LogEvent α)) i := by simp [Marked]

@[simp] theorem marked_cons {e : LogEvent α} {log : List (LogEvent α)} {i : Nat} :
    Marked (e :: log) i ↔ e.Marks i ∨ Marked log i := by simp [Marked]

@[simp] theorem marked_append {xs ys : List (LogEvent α)} {i : Nat} :
    Marked (xs ++ ys) i ↔ Marked xs i ∨ Marked ys i := by simp [Marked, or_and_right, exists_or]

/-! ## Honest logs -/

/-- Each place was written before it was marked. -/
def Honest (log : List (LogEvent α)) : Prop :=
  ∀ before e after, log = before ++ e :: after → ∀ i, e.Marks i → Written before i

theorem Honest.of_unmarked {log : List (LogEvent α)} (h : ∀ i, ¬Marked log i) : Honest log := by
  rintro before e after rfl i hi
  exact absurd ⟨e, by simp, hi⟩ (h i)

theorem Honest.append {xs ys : List (LogEvent α)} (hx : Honest xs) (hy : Honest ys) : Honest (xs ++ ys) := by
  intro before e after h i hi
  rcases List.append_eq_append_iff.mp h with ⟨mid, rfl, hys⟩ | ⟨mid, rfl, hcut⟩
  · exact written_append.mpr (Or.inr (hy mid e after hys i hi))
  · -- an honest `ys` does not start with a mark, so the mark is one of `xs`
    cases mid with
    | nil => exact absurd (hy [] e after hcut.symm i hi) (written_nil i)
    | cons e' mid =>
      obtain ⟨rfl, -⟩ := List.cons_eq_cons.mp hcut
      exact hx before e mid rfl i hi

/-- Places that the log has written may be marked. -/
theorem Honest.mark {log : List (LogEvent α)} {first last : Nat} (h : Honest log)
    (hwritten : ∀ i, first ≤ i → i ≤ last → Written log i) : Honest (log ++ [.marked first last]) := by
  intro before e after hlog i hi
  rcases List.eq_nil_or_concat after with rfl | ⟨after, e', rfl⟩
  · obtain ⟨rfl, he⟩ := List.append_inj' hlog rfl
    obtain rfl : LogEvent.marked first last = e := by simpa using he
    exact hwritten i hi.1 hi.2
  · have hinit : log ++ [.marked first last] = (before ++ e :: after) ++ [e'] := by simpa using hlog
    obtain ⟨rfl, -⟩ := List.append_inj' hinit rfl
    exact h before e after rfl i hi

theorem Honest.written {log : List (LogEvent α)} (h : Honest log) {i : Nat} (hi : Marked log i) : Written log i := by
  obtain ⟨e, he, hmarks⟩ := hi
  obtain ⟨before, after, rfl⟩ := List.append_of_mem he
  exact written_append.mpr (Or.inl (h before e after rfl i hmarks))

/-! ## What the writes make of a file -/

/-- `data` in place of what is there. -/
def writeAt (offset : Nat) (data file : List α) : List α := file.take offset ++ data ++ file.drop (offset + data.length)

def LogEvent.apply (file : List α) : LogEvent α → List α
  | wrote offset data => writeAt offset data file
  | marked _ _ => file

def replay (file : List α) (log : List (LogEvent α)) : List α := log.foldl LogEvent.apply file

section

variable {offset : Nat} {data file : List α}

theorem length_writeAt (h : offset + data.length ≤ file.length) : (writeAt offset data file).length = file.length := by
  simp only [writeAt, List.length_append, List.length_take, List.length_drop]
  omega

theorem getElem?_writeAt (h : offset + data.length ≤ file.length) (i : Nat) :
    (writeAt offset data file)[i]? =
      if offset ≤ i ∧ i < offset + data.length then data[i - offset]? else file[i]? := by
  have htake : (file.take offset).length = offset := by
    rw [List.length_take]
    omega
  unfold writeAt
  rcases Nat.lt_or_ge i offset with hlow | hlow
  · rw [if_neg (by omega), List.append_assoc, List.getElem?_append_left (by omega), List.getElem?_take_of_lt hlow]
  · rcases Nat.lt_or_ge i (offset + data.length) with hhigh | hhigh
    · rw [if_pos ⟨hlow, hhigh⟩, List.append_assoc, List.getElem?_append_right (by omega), htake,
        List.getElem?_append_left (by omega)]
    · rw [if_neg (by omega), List.getElem?_append_right (by rw [List.length_append]; omega), List.length_append, htake,
        List.getElem?_drop, Nat.add_sub_cancel' hhigh]

end

theorem LogEvent.length_apply {file : List α} {e : LogEvent α} {first after : Nat} (h : e.Within first after)
    (hafter : after ≤ file.length) : (e.apply file).length = file.length := by
  cases e with
  | wrote offset data => exact length_writeAt (h.2.trans hafter)
  | marked => rfl

section

variable {first after : Nat}

theorem length_replay {file : List α} {log : List (LogEvent α)} (h : ∀ e ∈ log, e.Within first after)
    (hafter : after ≤ file.length) : (replay file log).length = file.length := by
  induction log generalizing file with
  | nil => rfl
  | cons e log ih =>
    have hlen := LogEvent.length_apply (h e List.mem_cons_self) hafter
    exact (ih (fun e' he' => h e' (List.mem_cons_of_mem _ he')) (hlen ▸ hafter)).trans hlen

/-- What no write of the log touches stays. -/
theorem getElem?_replay {file : List α} {log : List (LogEvent α)} (h : ∀ e ∈ log, e.Within first after)
    (hafter : after ≤ file.length) {i : Nat} (hi : ¬Written log i) : (replay file log)[i]? = file[i]? := by
  induction log generalizing file with
  | nil => rfl
  | cons e log ih =>
    rw [written_cons, not_or] at hi
    have hwithin := h e List.mem_cons_self
    have hlen := LogEvent.length_apply hwithin hafter
    have hrest := ih (fun e' he' => h e' (List.mem_cons_of_mem _ he')) (hlen ▸ hafter) hi.2
    show (replay (e.apply file) log)[i]? = file[i]?
    rw [hrest]
    cases e with
    | wrote offset data => exact (getElem?_writeAt (hwithin.2.trans hafter) i).trans (if_neg hi.1)
    | marked => rfl

/-- Any other place holds what was written there last. -/
theorem getElem?_replay_last {file : List α} {before later : List (LogEvent α)} {offset : Nat} {data : List α}
    (h : ∀ e ∈ before ++ .wrote offset data :: later, e.Within first after) (hafter : after ≤ file.length) {i : Nat}
    (hi : offset ≤ i ∧ i < offset + data.length) (hlater : ¬Written later i) :
    (replay file (before ++ .wrote offset data :: later))[i]? = data[i - offset]? := by
  have hbefore := length_replay (fun e he => h e (List.mem_append_left _ he)) hafter
  have hwrote := h (.wrote offset data) (by simp)
  have hlen := LogEvent.length_apply hwrote (hbefore ▸ hafter)
  have hrest := getElem?_replay (fun e he => h e (by simp [he])) (hlen.trans hbefore ▸ hafter) hlater
  have hsplit : replay file (before ++ .wrote offset data :: later) =
      replay (LogEvent.apply (replay file before) (.wrote offset data)) later := by
    simp [replay]
  rw [hsplit, hrest]
  exact (getElem?_writeAt (hwrote.2.trans (hbefore ▸ hafter)) i).trans (if_pos hi)

end

end Weft
