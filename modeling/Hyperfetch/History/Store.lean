import Mathlib.Data.List.Induction
import Hyperfetch.History.Entry
import Hyperfetch.Weft.TSys

/-!
# Managers over one history file

Any number of managers, in any number of processes, over one file. A save takes
the lock, reads the file and replays the manager's pending changes onto what it
read (`lock`), renames the new file into place (`write`), and refreshes the
manager (`finish`); it may fail before the rename, and a manager may be dropped
or its process die anywhere, which gives up the lock. `modify` and the save it
ends with are events of their own, and a manager is busy while it saves.

A file that cannot be parsed reads as an empty list and is moved aside by a
save. No save writes such a file, so only the first file can be one.
-/

namespace Hyperfetch.History

open Weft

variable {P K : Type} [DecidableEq K]

inductive Content (P : Type)
  | absent
  | corrupt
  | entries (es : List (HistoryEntry P))

/-- `read_entries`. -/
def Content.read (w : Setting P K) : Content P → List (HistoryEntry P)
  | .entries es => es.map (HistoryEntry.redact w)
  | _ => []

/-- The file once a save has read it. -/
def Content.moveAside : Content P → Content P
  | .corrupt => .absent
  | content => content

inductive Phase (P : Type)
  | idle
  /-- Locked and read; `entries` are to be written. -/
  | saving (entries : List (HistoryEntry P))
  /-- The new file is in place. -/
  | wrote (entries : List (HistoryEntry P))

structure Manager (P : Type) where
  entries : List (HistoryEntry P)
  pending : List (Change P)
  phase : Phase P

inductive Party (P : Type)
  | unborn
  | alive (m : Manager P)
  /-- Dropped, or its process died. -/
  | gone

structure State (P : Type) where
  file : Content P
  /-- Who has the lock. -/
  holder : Option Nat
  parties : Nat → Party P
  /-- The saves so far, and what each manager was asked to change: for the
  statements only. -/
  saves : List (Nat × List (Change P))
  submitted : Nat → List (Change P)

namespace State

def setParty (s : State P) (i : Nat) (party : Party P) : State P :=
  { s with parties := Function.update s.parties i party }

def submit (s : State P) (i : Nat) (changes : List (Change P)) : State P :=
  { s with submitted := Function.update s.submitted i (s.submitted i ++ changes) }

/-- Manager `i`'s changes that were saved, in the order of its saves. -/
def saved (s : State P) (i : Nat) : List (Change P) := ((s.saves.filter (·.1 = i)).map (·.2)).flatten

end State

inductive Event (P : Type)
  /-- `load_from_path`; a file that cannot be read shows an empty history. -/
  | load (i : Nat) (readable : Bool)
  /-- `record` and `record_replacing`: a manager made with changes to save. -/
  | record (i : Nat) (changes : List (Change P))
  /-- `modify` up to its save. -/
  | modify (i : Nat) (change : Change P)
  | lock (i : Nat)
  | write (i : Nat)
  | finish (i : Nat)
  | fail (i : Nat)
  | drop (i : Nat)

/-- Frees the lock if `i` has it. -/
def State.release (s : State P) (i : Nat) : State P :=
  { s with holder := if s.holder = some i then none else s.holder }

def State.step (w : Setting P K) (s : State P) : Event P → Option (State P)
  | .load i readable =>
    match s.parties i with
    | .unborn => some (s.setParty i (.alive ⟨if readable then s.file.read w else [], [], .idle⟩))
    | _ => none
  | .record i changes =>
    match s.parties i with
    | .unborn => some ((s.setParty i (.alive ⟨[], changes, .idle⟩)).submit i changes)
    | _ => none
  | .modify i change =>
    match s.parties i with
    | .alive ⟨entries, pending, .idle⟩ =>
      some ((s.setParty i (.alive ⟨normalize w (change.apply w entries).1, pending ++ [change], .idle⟩)).submit i [change])
    | _ => none
  | .lock i =>
    match s.parties i, s.holder with
    | .alive ⟨entries, pending, .idle⟩, none =>
      some { s.setParty i (.alive ⟨entries, pending, .saving (replay w pending (s.file.read w))⟩) with
        file := s.file.moveAside
        holder := some i }
    | _, _ => none
  | .write i =>
    match s.parties i with
    | .alive ⟨entries, pending, .saving es⟩ =>
      some { s.setParty i (.alive ⟨entries, pending, .wrote es⟩) with
        file := .entries es
        saves := s.saves ++ [(i, pending)] }
    | _ => none
  | .finish i =>
    match s.parties i with
    | .alive ⟨_, _, .wrote es⟩ => some ((s.setParty i (.alive ⟨es, [], .idle⟩)).release i)
    | _ => none
  | .fail i =>
    match s.parties i with
    | .alive ⟨entries, pending, .saving _⟩ => some ((s.setParty i (.alive ⟨entries, pending, .idle⟩)).release i)
    | _ => none
  | .drop i =>
    match s.parties i with
    | .alive _ => some ((s.setParty i .gone).release i)
    | _ => none

/-- All runs over a file that holds `content` at first. -/
def histories (w : Setting P K) (content : Content P) : Machine (State P) (Event P) where
  init s := s = ⟨content, none, fun _ => .unborn, [], fun _ => []⟩
  step := State.step w

/-- The file after some saves: each reads it, replays its changes and
normalises. -/
def written (w : Setting P K) (content : Content P) (saves : List (Nat × List (Change P))) : Content P :=
  saves.foldl (fun file save => .entries (replay w save.2 (file.read w))) content

/-- The same with nothing but the changes. -/
def applied (w : Setting P K) (content : Content P) (saves : List (Nat × List (Change P))) : List (HistoryEntry P) :=
  saves.foldl (fun es save => replay w save.2 es) (content.read w)

/-! ## Small facts -/

omit [DecidableEq K] in
@[simp] theorem read_moveAside (w : Setting P K) (content : Content P) : content.moveAside.read w = content.read w := by
  cases content <;> rfl

theorem moveAside_moveAside (content : Content P) : content.moveAside.moveAside = content.moveAside := by
  cases content <;> rfl

theorem written_snoc (w : Setting P K) (content : Content P) (saves : List (Nat × List (Change P)))
    (save : Nat × List (Change P)) :
    written w content (saves ++ [save]) = .entries (replay w save.2 ((written w content saves).read w)) := by
  unfold written
  rw [List.foldl_append]
  rfl

theorem applied_snoc (w : Setting P K) (content : Content P) (saves : List (Nat × List (Change P)))
    (save : Nat × List (Change P)) :
    applied w content (saves ++ [save]) = replay w save.2 (applied w content saves) := by
  unfold applied
  rw [List.foldl_append]
  rfl

/-- A saved file is normal, and read as it was written once secrets are out. -/
theorem written_cases (w : Setting P K) (content : Content P) {saves : List (Nat × List (Change P))} (h : saves ≠ []) :
    ∃ es, written w content saves = .entries es ∧ Normal w es := by
  induction saves using List.reverseRecOn with
  | nil => exact absurd rfl h
  | append_singleton saves save _ =>
    rw [written_snoc]
    exact ⟨_, rfl, normal_replay w save.2 _⟩

/-- Reading takes nothing out of what saves wrote. -/
theorem read_written {w : Setting P K} (hw : ∀ e : HistoryEntry P, (e.redact w).redact w = e.redact w)
    (content : Content P) (saves : List (Nat × List (Change P))) :
    (written w content saves).read w = applied w content saves ∧
      ∀ e ∈ applied w content saves, Redacted w e := by
  induction saves using List.reverseRecOn with
  | nil =>
    refine ⟨rfl, fun e he => ?_⟩
    cases content with
    | entries es =>
      obtain ⟨f, _, rfl⟩ := List.mem_map.mp he
      exact hw f
    | absent => cases he
    | corrupt => cases he
  | append_singleton saves save ih =>
    obtain ⟨hread, hall⟩ := ih
    have hclean := redacted_replay hw save.2 hall
    rw [written_snoc, applied_snoc, hread]
    exact ⟨redact_all hclean, hclean⟩

theorem saved_snoc (s : State P) (i j : Nat) (changes : List (Change P)) :
    State.saved { s with saves := s.saves ++ [(i, changes)] } j = s.saved j ++ if i = j then changes else [] := by
  unfold State.saved
  rw [List.filter_append, List.map_append, List.flatten_append]
  by_cases h : i = j
  · simp [h]
  · simp [h]

/-! ## The invariant -/

/-- The changes of a manager that no save has written. -/
def Manager.unsaved (m : Manager P) : List (Change P) :=
  match m.phase with
  | .wrote _ => []
  | _ => m.pending

/-- Every change asked for is saved or pending, once and in order; and a save
under way has the lock, and read the file as it is. -/
def State.PartyOk (w : Setting P K) (s : State P) (i : Nat) : Party P → Prop
  | .unborn => s.saved i = [] ∧ s.submitted i = []
  | .gone => s.saved i <+: s.submitted i
  | .alive m => s.saved i ++ m.unsaved = s.submitted i ∧
    match m.phase with
    | .idle => True
    | .saving es => s.holder = some i ∧ es = replay w m.pending (s.file.read w)
    | .wrote es => s.holder = some i ∧ s.file = .entries es

structure State.Sound (w : Setting P K) (content : Content P) (s : State P) : Prop where
  /-- A save that failed may have moved an unreadable file aside. -/
  file : s.file = written w content s.saves ∨ s.file = (written w content s.saves).moveAside
  parties : ∀ i, s.PartyOk w i (s.parties i)

theorem State.Sound.read {w : Setting P K} {content : Content P} {s : State P} (h : s.Sound w content) :
    s.file.read w = (written w content s.saves).read w := by
  rcases h.file with hfile | hfile
  · rw [hfile]
  · rw [hfile, read_moveAside]

namespace State.PartyOk

variable {w : Setting P K} {s s' : State P}

/-- A step of another party leaves a party as it should be, as long as it keeps
the lock and the file of one that is saving. -/
theorem other {j : Nat} {party : Party P} (h : s.PartyOk w j party) (hsaved : s'.saved j = s.saved j)
    (hsubmitted : s'.submitted j = s.submitted j)
    (hbusy : s.holder = some j → s'.holder = some j ∧ s'.file = s.file) : s'.PartyOk w j party := by
  cases party with
  | unborn => exact ⟨hsaved.trans h.1, hsubmitted.trans h.2⟩
  | gone =>
    show s'.saved j <+: s'.submitted j
    rw [hsaved, hsubmitted]
    exact h
  | alive m =>
    obtain ⟨hbooks, hphase⟩ := h
    refine ⟨by rw [hsaved, hsubmitted]; exact hbooks, ?_⟩
    cases hm : m.phase with
    | idle => trivial
    | saving es =>
      rw [hm] at hphase
      obtain ⟨hholder, hes⟩ := hphase
      obtain ⟨hholder', hfile⟩ := hbusy hholder
      exact ⟨hholder', by rw [hfile]; exact hes⟩
    | wrote es =>
      rw [hm] at hphase
      obtain ⟨hholder, hes⟩ := hphase
      obtain ⟨hholder', hfile⟩ := hbusy hholder
      exact ⟨hholder', hfile.trans hes⟩

end State.PartyOk

/-! ## Steps -/

section

variable {w : Setting P K} {content : Content P} {s s' : State P}

/-- A step that changes one party, and frees or keeps the lock. -/
theorem State.Sound.only (h : s.Sound w content) (i : Nat) {party : Party P} (hsaves : s'.saves = s.saves)
    (hfile : s'.file = s.file) (hholder : ∀ j, j ≠ i → s.holder = some j → s'.holder = some j)
    (hparties : s'.parties = Function.update s.parties i party)
    (hsubmitted : ∀ j, j ≠ i → s'.submitted j = s.submitted j) (hi : s'.PartyOk w i party) :
    s'.Sound w content := by
  refine ⟨?_, fun j => ?_⟩
  · rw [hsaves, hfile]
    exact h.file
  · rw [hparties]
    by_cases hj : j = i
    · subst hj
      rw [Function.update_self]
      exact hi
    · rw [Function.update_of_ne hj]
      have hsaved : s'.saved j = s.saved j := by
        unfold State.saved
        rw [hsaves]
      exact (h.parties j).other hsaved (hsubmitted j hj) fun hbusy => ⟨hholder j hj hbusy, hfile⟩

theorem release_other {i j : Nat} (hj : j ≠ i) (h : s.holder = some j) : (s.release i).holder = some j := by
  show (if s.holder = some i then none else s.holder) = some j
  rw [h, if_neg (by simpa using hj)]

theorem State.Sound.load (h : s.Sound w content) {i : Nat} {readable : Bool}
    (hstep : s.step w (.load i readable) = some s') : s'.Sound w content := by
  simp only [State.step] at hstep
  split at hstep
  · rename_i hparty
    cases hstep
    have hi := h.parties i
    rw [hparty] at hi
    refine h.only i rfl rfl (fun _ _ hj => hj) rfl (fun _ _ => rfl) ⟨?_, trivial⟩
    show s.saved i ++ [] = s.submitted i
    rw [hi.1, hi.2]
    rfl
  · cases hstep

theorem State.Sound.record (h : s.Sound w content) {i : Nat} {changes : List (Change P)}
    (hstep : s.step w (.record i changes) = some s') : s'.Sound w content := by
  simp only [State.step] at hstep
  split at hstep
  · rename_i hparty
    cases hstep
    have hi := h.parties i
    rw [hparty] at hi
    refine h.only i rfl rfl (fun _ _ hj => hj) rfl (fun j hj => Function.update_of_ne hj _ _) ⟨?_, trivial⟩
    show s.saved i ++ changes = Function.update s.submitted i (s.submitted i ++ changes) i
    rw [Function.update_self, hi.1, hi.2]
  · cases hstep

theorem State.Sound.modify (h : s.Sound w content) {i : Nat} {change : Change P}
    (hstep : s.step w (.modify i change) = some s') : s'.Sound w content := by
  simp only [State.step] at hstep
  split at hstep
  · rename_i entries pending hparty
    cases hstep
    have hi := h.parties i
    rw [hparty] at hi
    have hbooks : s.saved i ++ pending = s.submitted i := hi.1
    refine h.only i rfl rfl (fun _ _ hj => hj) rfl (fun j hj => Function.update_of_ne hj _ _) ⟨?_, trivial⟩
    show s.saved i ++ (pending ++ [change]) = Function.update s.submitted i (s.submitted i ++ [change]) i
    rw [Function.update_self, ← hbooks, List.append_assoc]
  · cases hstep

theorem State.Sound.lock (h : s.Sound w content) {i : Nat} (hstep : s.step w (.lock i) = some s') :
    s'.Sound w content := by
  simp only [State.step] at hstep
  split at hstep
  · rename_i entries pending hparty hfree
    cases hstep
    refine ⟨?_, fun j => ?_⟩
    · right
      show s.file.moveAside = (written w content s.saves).moveAside
      rcases h.file with hfile | hfile
      · rw [hfile]
      · rw [hfile, moveAside_moveAside]
    · have hj := h.parties j
      by_cases hij : j = i
      · subst hij
        rw [hparty] at hj
        show State.PartyOk w _ j (Function.update s.parties j _ j)
        rw [Function.update_self]
        refine ⟨hj.1, rfl, ?_⟩
        show replay w pending (s.file.read w) = replay w pending (s.file.moveAside.read w)
        rw [read_moveAside]
      · show State.PartyOk w _ j (Function.update s.parties i _ j)
        rw [Function.update_of_ne hij]
        refine hj.other rfl rfl fun hbusy => ?_
        rw [hfree] at hbusy
        cases hbusy
  · cases hstep

theorem State.Sound.write (h : s.Sound w content) {i : Nat} (hstep : s.step w (.write i) = some s') :
    s'.Sound w content := by
  simp only [State.step] at hstep
  split at hstep
  · rename_i entries pending es hparty
    cases hstep
    have hi := h.parties i
    rw [hparty] at hi
    obtain ⟨hbooks, hholder, hes⟩ := hi
    have hes : es = replay w pending (s.file.read w) := hes
    refine ⟨.inl ?_, fun j => ?_⟩
    · show Content.entries es = written w content (s.saves ++ [(i, pending)])
      rw [written_snoc, hes, h.read]
    · have hj := h.parties j
      by_cases hij : j = i
      · subst hij
        show State.PartyOk w _ j (Function.update s.parties j _ j)
        rw [Function.update_self]
        refine ⟨?_, hholder, rfl⟩
        show State.saved { s with saves := s.saves ++ [(j, pending)] } j ++ [] = s.submitted j
        rw [saved_snoc, if_pos rfl, List.append_nil]
        exact hbooks
      · show State.PartyOk w _ j (Function.update s.parties i _ j)
        rw [Function.update_of_ne hij]
        refine hj.other ?_ rfl fun hbusy => ?_
        · show State.saved { s with saves := s.saves ++ [(i, pending)] } j = s.saved j
          rw [saved_snoc, if_neg (Ne.symm hij), List.append_nil]
        · -- the lock is `i`'s
          rw [hholder, Option.some.injEq] at hbusy
          exact absurd hbusy.symm hij
  · cases hstep

theorem State.Sound.finish (h : s.Sound w content) {i : Nat} (hstep : s.step w (.finish i) = some s') :
    s'.Sound w content := by
  simp only [State.step] at hstep
  split at hstep
  · rename_i entries pending es hparty
    cases hstep
    have hi := h.parties i
    rw [hparty] at hi
    exact h.only i rfl rfl (fun _ hj hbusy => release_other hj hbusy) rfl (fun _ _ => rfl) ⟨hi.1, trivial⟩
  · cases hstep

theorem State.Sound.fail (h : s.Sound w content) {i : Nat} (hstep : s.step w (.fail i) = some s') :
    s'.Sound w content := by
  simp only [State.step] at hstep
  split at hstep
  · rename_i entries pending es hparty
    cases hstep
    have hi := h.parties i
    rw [hparty] at hi
    exact h.only i rfl rfl (fun _ hj hbusy => release_other hj hbusy) rfl (fun _ _ => rfl) ⟨hi.1, trivial⟩
  · cases hstep

theorem State.Sound.drop (h : s.Sound w content) {i : Nat} (hstep : s.step w (.drop i) = some s') :
    s'.Sound w content := by
  simp only [State.step] at hstep
  split at hstep
  · rename_i m hparty
    cases hstep
    have hi := h.parties i
    rw [hparty] at hi
    refine h.only i rfl rfl (fun _ hj hbusy => release_other hj hbusy) rfl (fun _ _ => rfl) ?_
    exact ⟨m.unsaved, hi.1⟩
  · cases hstep

end

theorem sound_inductive (w : Setting P K) (content : Content P) :
    (histories w content).toTSys.Inductive (State.Sound w content) where
  init := by
    rintro s rfl
    exact ⟨.inl rfl, fun i => ⟨rfl, rfl⟩⟩
  step := by
    rintro s s' h ⟨e, hstep⟩
    cases e with
    | load i readable => exact h.load hstep
    | record i changes => exact h.record hstep
    | modify i change => exact h.modify hstep
    | lock i => exact h.lock hstep
    | write i => exact h.write hstep
    | finish i => exact h.finish hstep
    | fail i => exact h.fail hstep
    | drop i => exact h.drop hstep

/-- In every state any run reaches, the file is what the saves made of the
first one, each replaying its changes onto what it read; where redaction is
idempotent that is what the changes alone make of it. Each manager's changes
are saved or pending, once and in order. A saved file is normal, and a manager
that finishes a save has nothing pending and holds what the file holds. -/
theorem history_is_replayed (w : Setting P K) (content : Content P) :
    (histories w content).toTSys.Invariant fun s =>
      (s.saves ≠ [] → s.file = written w content s.saves ∧ ∃ es, s.file = .entries es ∧ Normal w es) ∧
      ((∀ e : HistoryEntry P, (e.redact w).redact w = e.redact w) → s.saves ≠ [] →
        s.file = .entries (applied w content s.saves)) ∧
      ((∀ es, content = .entries es → Normal w es) → ∀ es, s.file = .entries es → Normal w es) ∧
      (∀ i m, s.parties i = .alive m → s.saved i ++ m.unsaved = s.submitted i) ∧
      (∀ i, s.saved i <+: s.submitted i) ∧
      ∀ i s', s.step w (.finish i) = some s' → ∃ m, s'.parties i = .alive m ∧ m.pending = [] ∧
        s'.file = .entries m.entries := by
  intro s hreach
  have h := (sound_inductive w content).invariant s hreach
  have hfile : s.saves ≠ [] → s.file = written w content s.saves ∧ ∃ es, s.file = .entries es ∧ Normal w es := by
    intro hne
    obtain ⟨es, hes, hnormal⟩ := written_cases w content hne
    have hsame : s.file = written w content s.saves := by
      rcases h.file with hfile | hfile
      · exact hfile
      · rw [hfile, hes]
        rfl
    exact ⟨hsame, es, hsame.trans hes, hnormal⟩
  refine ⟨hfile, fun hw hne => ?_, fun hfirst es hes => ?_, fun i m hm => ?_, fun i => ?_, fun i s' hstep => ?_⟩
  · rw [(hfile hne).1]
    generalize hsaves : s.saves = saves at hne
    cases saves using List.reverseRecOn with
    | nil => exact absurd rfl hne
    | append_singleton saves save =>
      rw [written_snoc, applied_snoc, (read_written hw content saves).1]
  · by_cases hne : s.saves = []
    · rcases h.file with hfirstFile | hfirstFile
      · rw [hne] at hfirstFile
        exact hfirst es (hfirstFile.symm.trans hes)
      · rw [hne, hes] at hfirstFile
        cases content with
        | entries es' =>
          cases hfirstFile
          exact hfirst es rfl
        | absent => cases hfirstFile
        | corrupt => cases hfirstFile
    · obtain ⟨_, es', hes', hnormal⟩ := hfile hne
      rw [hes] at hes'
      cases hes'
      exact hnormal
  · have hi := h.parties i
    rw [hm] at hi
    exact hi.1
  · have hi := h.parties i
    cases hparty : s.parties i with
    | unborn =>
      rw [hparty] at hi
      rw [hi.1]
      exact List.nil_prefix
    | gone =>
      rw [hparty] at hi
      exact hi
    | alive m =>
      rw [hparty] at hi
      exact ⟨m.unsaved, hi.1⟩
  · simp only [State.step] at hstep
    split at hstep
    · rename_i entries pending es hparty
      cases hstep
      have hi := h.parties i
      rw [hparty] at hi
      exact ⟨⟨es, [], .idle⟩, Function.update_self _ _ _, rfl, hi.2.2⟩
    · cases hstep

/-- Two managers; the second, whose copy is stale, adds its entry beside the
first one's. -/
theorem history_is_replayed_two (first second : HistoryEntry String) :
    ∃ s, (histories ⟨id, id, id⟩ .absent).run
        ⟨.absent, none, fun _ => .unborn, [], fun _ => []⟩ [
          .load 0 true, .load 1 true, .modify 0 (.upsert first), .lock 0, .modify 1 (.upsert second), .write 0,
          .finish 0, .lock 1, .fail 1, .lock 1, .write 1] = some s ∧
      s.saves = [(0, [.upsert first]), (1, [.upsert second])] ∧
      s.file = written ⟨id, id, id⟩ .absent [(0, [.upsert first]), (1, [.upsert second])] := by
  have hrun : ∃ s, (histories (⟨id, id, id⟩ : Setting String String) .absent).run
        ⟨.absent, none, fun _ => .unborn, [], fun _ => []⟩ [
          .load 0 true, .load 1 true, .modify 0 (.upsert first), .lock 0, .modify 1 (.upsert second), .write 0,
          .finish 0, .lock 1, .fail 1, .lock 1, .write 1] = some s ∧
      s.saves = [(0, [.upsert first]), (1, [.upsert second])] := ⟨_, rfl, rfl⟩
  obtain ⟨s, hs, hsaves⟩ := hrun
  have hreach : (histories ⟨id, id, id⟩ .absent).toTSys.Reachable s := Machine.reachable_run (.init rfl) hs
  have hfile := ((history_is_replayed ⟨id, id, id⟩ .absent s hreach).1 (by simp [hsaves])).1
  rw [hsaves] at hfile
  exact ⟨s, hs, hsaves, hfile⟩

end Hyperfetch.History
