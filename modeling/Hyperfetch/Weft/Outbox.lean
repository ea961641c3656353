import Mathlib.Tactic

/-!
# A writer that keeps the newest

Values are sent over a channel to a writer. It takes them one by one, holds the
newest it took, and writes that when it likes; a write may fail. What it writes
is in the order sent, and once nothing is left to take or to write the last
write is of the last value sent.
-/

namespace Weft

variable {α : Type*}

structure Outbox (α : Type*) where
  /-- All that was sent so far. -/
  sent : List α := []
  /-- Sent, and not taken yet. -/
  channel : List α := []
  held : Option α := none
  /-- The writes so far, each with whether it went through. -/
  written : List (α × Bool) := []

namespace Outbox

def send (o : Outbox α) (a : α) : Outbox α := { o with sent := o.sent ++ [a], channel := o.channel ++ [a] }

/-- The next value is taken, in place of the one held. -/
def take (o : Outbox α) : Outbox α :=
  match o.channel with
  | [] => o
  | a :: rest => { o with channel := rest, held := some a }

def write (o : Outbox α) (ok : Bool) : Outbox α :=
  match o.held with
  | none => o
  | some a => { o with held := none, written := o.written ++ [(a, ok)] }

/-- Nothing is left to take or to write. -/
def Idle (o : Outbox α) : Prop := o.held = none ∧ o.channel = []

/-- The last write went through, if there was one. -/
def Well (o : Outbox α) : Prop := ∀ last ∈ o.written.getLast?, last.2 = true

/-- What the last write that went through left. -/
def stored (o : Outbox α) : Option α := (o.written.filter (·.2)).getLast?.map (·.1)

@[simp] theorem sent_take (o : Outbox α) : o.take.sent = o.sent := by
  unfold take
  split <;> rfl

@[simp] theorem sent_write (o : Outbox α) (ok : Bool) : (o.write ok).sent = o.sent := by
  unfold write
  split <;> rfl

/-- Written, held and waiting. -/
def passed (o : Outbox α) : List α := o.written.map (·.1) ++ o.held.toList ++ o.channel

structure InOrder (o : Outbox α) : Prop where
  sublist : o.passed.Sublist o.sent
  last : o.passed.getLast? = o.sent.getLast?

theorem inOrder_empty : ({} : Outbox α).InOrder := ⟨List.Sublist.refl _, rfl⟩

theorem InOrder.send {o : Outbox α} (h : o.InOrder) (a : α) : (o.send a).InOrder := by
  have hpassed : (o.send a).passed = o.passed ++ [a] := (List.append_assoc _ _ _).symm
  refine ⟨?_, ?_⟩
  · rw [hpassed]
    exact h.sublist.append (List.Sublist.refl [a])
  · rw [hpassed, Outbox.send, List.getLast?_concat, List.getLast?_concat]

theorem InOrder.take {o : Outbox α} (h : o.InOrder) : o.take.InOrder := by
  unfold Outbox.take
  split
  · exact h
  next a rest hchannel =>
    have hpassed : o.passed = o.written.map (·.1) ++ o.held.toList ++ a :: rest := by rw [passed, hchannel]
    have hafter : passed { o with channel := rest, held := some a } = o.written.map (·.1) ++ a :: rest := by
      rw [passed, List.append_assoc]
      rfl
    refine ⟨?_, ?_⟩
    · rw [hafter]
      refine List.Sublist.trans ?_ h.sublist
      rw [hpassed]
      exact (List.sublist_append_left _ _).append (List.Sublist.refl _)
    · rw [hafter, List.getLast?_append_cons, ← h.last, hpassed, List.getLast?_append_cons]

theorem InOrder.write {o : Outbox α} (h : o.InOrder) (ok : Bool) : (o.write ok).InOrder := by
  unfold Outbox.write
  split
  · exact h
  next a hheld =>
    have hpassed : passed { o with held := none, written := o.written ++ [(a, ok)] } = o.passed := by
      simp [passed, hheld]
    exact ⟨hpassed ▸ h.sublist, hpassed ▸ h.last⟩

/-- What is written is written in the order sent. -/
theorem InOrder.written {o : Outbox α} (h : o.InOrder) : (o.written.map (·.1)).Sublist o.sent := by
  refine List.Sublist.trans ?_ h.sublist
  rw [passed, List.append_assoc]
  exact List.sublist_append_left _ _

/-- Once the writer is idle what it stored is the last value sent. -/
theorem InOrder.stored {o : Outbox α} (h : o.InOrder) (hidle : o.Idle) (hwell : o.Well) : o.stored = o.sent.getLast? := by
  have hpassed : o.passed = o.written.map (·.1) := by simp [passed, hidle.1, hidle.2]
  rw [← h.last, hpassed, List.getLast?_map, Outbox.stored]
  rcases List.eq_nil_or_concat o.written with hnil | ⟨before, last, hlast⟩
  · rw [hnil]
    rfl
  · have htrue : last.2 = true := hwell last (by rw [hlast, List.concat_eq_append, List.getLast?_concat]; rfl)
    rw [hlast, List.concat_eq_append, List.filter_append, List.filter_singleton, htrue, cond_true, List.getLast?_concat,
      List.getLast?_concat]

end Outbox

end Weft
