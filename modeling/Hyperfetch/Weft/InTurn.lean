import Hyperfetch.Weft.Find

/-!
# Pieces one after another

`findEach` looks for the pieces in turn, each at its leftmost place behind the one
before. Wherever else a piece could stand, the leftmost place leaves as much of the
text to the pieces after it (`Placed.mono`), so the search finds places for all
whenever there are any (`isSome_findEach`).
-/

namespace Weft

variable {α : Type*} [DecidableEq α]

/-- What is left of the text behind the last piece. -/
def findEach : List (List α) → List α → Option (List α)
  | [], rest => some rest
  | piece :: pieces, rest =>
    match findMark piece rest with
    | some cut => findEach pieces (cut.2.drop piece.length)
    | none => none

/-- Each piece stands in the text at its place, none before `start` or before the end
of the piece before it. -/
def Placed (text : List α) : Nat → List (List α) → List Nat → Prop
  | _, [], [] => True
  | start, piece :: pieces, place :: places =>
    start ≤ place ∧ piece <+: text.drop place ∧ Placed text (place + piece.length) pieces places
  | _, _, _ => False

omit [DecidableEq α] in
theorem Placed.mono {text : List α} {m n : Nat} (hle : m ≤ n) {pieces : List (List α)} {places : List Nat}
    (h : Placed text n pieces places) : Placed text m pieces places := by
  cases pieces with
  | nil =>
    cases places with
    | nil => trivial
    | cons place places => exact h
  | cons piece pieces =>
    cases places with
    | nil => exact h
    | cons place places => exact ⟨Nat.le_trans hle h.1, h.2⟩

/-- Nowhere before the place found does the mark stand. -/
theorem length_le_of_findMark {mark text front back : List α} (h : findMark mark text = some (front, back)) {n : Nat}
    (hn : mark <+: text.drop n) : front.length ≤ n := by
  induction text generalizing front n with
  | nil => cases h
  | cons c rest ih =>
    unfold findMark at h
    split at h
    next =>
      cases h
      exact Nat.zero_le n
    next hnot =>
      obtain ⟨⟨front', back'⟩, hrest, hcut⟩ := Option.map_eq_some_iff.mp h
      obtain ⟨rfl, rfl⟩ := Prod.mk.inj hcut
      cases n with
      | zero => exact absurd hn hnot
      | succ n => exact Nat.succ_le_succ (ih hrest hn)

theorem exists_findMark {mark text : List α} (hne : mark ≠ []) {n : Nat} (hn : mark <+: text.drop n) :
    ∃ front back, findMark mark text = some (front, back) := by
  cases h : findMark mark text with
  | none => exact absurd (hn.isInfix.trans (text.drop_suffix n).isInfix) ((findMark_eq_none hne).mp h)
  | some cut => exact ⟨cut.1, cut.2, rfl⟩

/-- The leftmost choices find places for the pieces whenever any choice would. -/
theorem isSome_findEach {pieces : List (List α)} (hne : ∀ piece ∈ pieces, piece ≠ []) {text : List α} {n : Nat} :
    (findEach pieces (text.drop n)).isSome = true ↔ ∃ places, Placed text n pieces places := by
  induction pieces generalizing n with
  | nil =>
    constructor
    · intro _
      exact ⟨[], trivial⟩
    · intro _
      rfl
  | cons piece pieces ih =>
    have hpiece : piece ≠ [] := hne piece List.mem_cons_self
    replace ih := @ih fun p hp => hne p (List.mem_cons_of_mem piece hp)
    constructor
    · intro h
      unfold findEach at h
      split at h
      next cut hcut =>
        obtain ⟨hsplit, hstands⟩ := findMark_eq_some hcut
        have hback : text.drop (n + cut.1.length) = cut.2 := by
          rw [← List.drop_drop, hsplit, List.drop_left]
        rw [← hback, List.drop_drop, ih] at h
        obtain ⟨places, hplaces⟩ := h
        refine ⟨(n + cut.1.length) :: places, Nat.le_add_right n cut.1.length, ?_, hplaces⟩
        rwa [hback]
      next => cases h
    · rintro ⟨places, h⟩
      cases places with
      | nil => cases h
      | cons place places =>
        obtain ⟨hstart, hstands, hrest⟩ := h
        have hdrop : piece <+: (text.drop n).drop (place - n) := by
          rwa [List.drop_drop, Nat.add_sub_cancel' hstart]
        obtain ⟨front, back, hfound⟩ := exists_findMark hpiece hdrop
        have hleft : front.length ≤ place - n := length_le_of_findMark hfound hdrop
        have hback : text.drop (n + front.length) = back := by
          rw [← List.drop_drop, (findMark_eq_some hfound).1, List.drop_left]
        -- the places of the other pieces serve behind the leftmost one too
        have hmono : Placed text (n + front.length + piece.length) pieces places := hrest.mono (by omega)
        rw [findEach, hfound]
        show (findEach pieces (back.drop piece.length)).isSome = true
        rw [← hback, List.drop_drop]
        exact ih.mpr ⟨places, hmono⟩

end Weft
