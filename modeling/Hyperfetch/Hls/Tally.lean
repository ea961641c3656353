import Hyperfetch.Range
import Hyperfetch.Weft.TSys
import Mathlib.Tactic

/-!
# What a stream download counts

hls.rs 817–950: the bytes of a segment's requests are counted in the download's total as they
arrive, and taken back out by an attempt that fails and by a fetch that is dropped. A fetch's
attempts go from one await to the next, in any order with those of all other fetches; what of
them is not told apart by the counters, such as which failure is retried, is left open.
-/

namespace Hyperfetch.Hls

open Weft

/-- Where a tally's fetch waits: between attempts, or at an await of `fetch_once`. -/
inductive Phase where
  | between
  /-- For a slot of the host, or for the response. -/
  | asking (range : Option ByteRange) (maxBytes : ℕ)
  /-- For the next piece of the body, of which `body` bytes are there. -/
  | reading (range : Option ByteRange) (tooLarge : Bool) (readLimit body : ℕ)
  /-- Until the speed limit lets `chunk` bytes more in, which are counted already. -/
  | pacing (range : Option ByteRange) (tooLarge : Bool) (readLimit body chunk : ℕ)

/-- A tally that has not been dropped. -/
structure Tally where
  own : ℕ
  phase : Phase
  /-- The bodies of the attempts that succeeded, which were not taken back. -/
  earlier : List ℕ

/-- The counter every tally adds to, and what is said of it. -/
structure Total where
  total : ℕ
  /-- The own counts of the tallies that were kept. -/
  kept : ℕ
  /-- Whether a subtraction has wrapped. -/
  wrapped : Bool

/-- `fetch_sub` of an `AtomicU64`. -/
def fetchSub (a b : ℕ) : ℕ := if b ≤ a then a - b else a + 2 ^ 64 - b

/-- Most bytes read of a body that is too large, to tell what it is. -/
def peekBytes : ℕ := 1024

namespace Tally

def new : Tally := { own := 0, phase := .between, earlier := [] }

def add (t : Tally) (c : Total) (bytes : ℕ) : Tally × Total :=
  ({ t with own := t.own + bytes }, { c with total := c.total + bytes })

def takeBack (t : Tally) (c : Total) (bytes : ℕ) : Tally × Total :=
  ({ t with own := fetchSub t.own bytes },
    { c with total := fetchSub c.total bytes, wrapped := c.wrapped || !(bytes ≤ c.total) || !(bytes ≤ t.own) })

/-- `Drop`, of which nothing of the tally is left. -/
def drop (t : Tally) (c : Total) : Total :=
  { c with total := fetchSub c.total t.own, wrapped := c.wrapped || !(t.own ≤ c.total) }

/-- `keep`, which drops the tally once its own count is stored to be none. -/
def keep (t : Tally) (c : Total) : Total := { t with own := 0 }.drop { c with kept := c.kept + t.own }

end Tally

/-- How a request is answered; `none` is a failure or no answer in time. -/
structure Answer where
  status : ℕ
  contentLength : Option ℕ

/-- What comes of a body: a piece, its end, or neither for too long or an error. -/
inductive Piece where
  | chunk (bytes : ℕ)
  | finished
  | failed

/-- What happens to one fetch. -/
inductive FetchEvent where
  | attempt (range : Option ByteRange) (maxBytes : ℕ)
  | answer (answer : Option Answer)
  | piece (piece : Piece)
  | paced
  | keep
  | drop

/-- An attempt that fails takes its body back. -/
def failWith (t : Tally) (c : Total) (body : ℕ) : Tally × Total :=
  let (t, c) := t.takeBack c body
  ({ t with phase := .between }, c)

/-- The response of an attempt, 880–911: one that is no success ends it, with nothing counted. -/
def answered (t : Tally) (range : Option ByteRange) (maxBytes : ℕ) : Option Answer → Tally
  | none => { t with phase := .between }
  | some a =>
    if ¬ (200 ≤ a.status ∧ a.status < 300) ∨ (range.isSome ∧ a.status ≠ 206) then { t with phase := .between }
    else
      let declaredTooLarge := a.contentLength.any (maxBytes < ·)
      { t with phase := .reading range declaredTooLarge (if declaredTooLarge then min peekBytes maxBytes else maxBytes) 0 }

/-- What `resp.chunk()` gives, 915–948. -/
def received (t : Tally) (c : Total) (range : Option ByteRange) (tooLarge : Bool) (readLimit body : ℕ) : Piece → Tally × Total
  | .failed => failWith t c body
  | .finished =>
    if tooLarge then failWith t c body
    else if range.any (body ≠ ·.len) then failWith t c body
    else ({ t with phase := .between, earlier := t.earlier ++ [body] }, c)
  | .chunk bytes =>
    if body + bytes > readLimit then failWith t c body
    else
      let (t, c) := t.add c bytes
      ({ t with phase := .pacing range tooLarge readLimit body bytes }, c)

/-- One fetch from an await to the next; no tally is left of one that is kept or dropped. -/
def stepFetch (t : Tally) (c : Total) : FetchEvent → Option (Option Tally × Total)
  | .attempt range maxBytes =>
    match t.phase with
    | .between => some (some { t with phase := .asking range maxBytes }, c)
    | _ => none
  | .answer a =>
    match t.phase with
    | .asking range maxBytes => some (some (answered t range maxBytes a), c)
    | _ => none
  | .piece p =>
    match t.phase with
    | .reading range tooLarge readLimit body =>
      let (t, c) := received t c range tooLarge readLimit body p
      some (some t, c)
    | _ => none
  | .paced =>
    match t.phase with
    | .pacing range tooLarge readLimit body chunk => some (some { t with phase := .reading range tooLarge readLimit (body + chunk) }, c)
    | _ => none
  | .keep =>
    match t.phase with
    | .between => some (none, t.keep c)
    | _ => none
  | .drop => some (none, t.drop c)

/-- A download's counter, and the tallies made so far. -/
structure Download where
  counter : Total
  tallies : List (Option Tally)

inductive DownloadEvent where
  | begin
  | fetch (i : ℕ) (event : FetchEvent)

def stepDownload (s : Download) : DownloadEvent → Option Download
  | .begin => some { s with tallies := s.tallies ++ [some .new] }
  | .fetch i event => do
    let t ← (s.tallies[i]?).join
    let (t, c) ← stepFetch t s.counter event
    return { counter := c, tallies := s.tallies.set i t }

/-- A download that resumes with `start` bytes. -/
def downloading (start : ℕ) : Machine Download DownloadEvent where
  init s := s = { counter := { total := start, kept := 0, wrapped := false }, tallies := [] }
  step := stepDownload

/-! ## What the counts are -/

/-- The bytes of the attempt in progress that are counted. -/
def Phase.counted : Phase → ℕ
  | .between => 0
  | .asking _ _ => 0
  | .reading _ _ _ body => body
  | .pacing _ _ _ body chunk => body + chunk

/-- The own count is that of the attempt in progress and of those not taken back. -/
def Tally.Counts (t : Tally) : Prop := t.own = t.earlier.sum + t.phase.counted

/-- What a tally that may be gone has in the total. -/
def ownOf (t : Option Tally) : ℕ := (t.map Tally.own).getD 0

theorem fetchSub_of_le {a b : ℕ} (h : b ≤ a) : fetchSub a b = a - b := if_pos h

theorem failWith_spec {t : Tally} {c : Total} {body : ℕ} (hown : t.own = t.earlier.sum + body) (htotal : t.own ≤ c.total) :
    (failWith t c body).1.Counts ∧ (failWith t c body).2.total + t.own = c.total + (failWith t c body).1.own ∧
      (failWith t c body).2.kept = c.kept ∧ (failWith t c body).2.wrapped = c.wrapped := by
  have hbody : body ≤ t.own := by omega
  have hle : body ≤ c.total := hbody.trans htotal
  simp only [failWith, Tally.takeBack, Tally.Counts, Phase.counted, fetchSub_of_le hbody, fetchSub_of_le hle, hbody, hle,
    decide_true, Bool.not_true, Bool.or_false, and_true]
  omega

theorem received_spec {t : Tally} {c : Total} {range : Option ByteRange} {tooLarge : Bool} {readLimit body : ℕ}
    (hown : t.own = t.earlier.sum + body) (htotal : t.own ≤ c.total) (p : Piece) :
    (received t c range tooLarge readLimit body p).1.Counts ∧
      (received t c range tooLarge readLimit body p).2.total + t.own = c.total + (received t c range tooLarge readLimit body p).1.own ∧
      (received t c range tooLarge readLimit body p).2.kept = c.kept ∧
      (received t c range tooLarge readLimit body p).2.wrapped = c.wrapped := by
  cases p with
  | failed => exact failWith_spec hown htotal
  | finished =>
    simp only [received]
    split
    · exact failWith_spec hown htotal
    · split
      · exact failWith_spec hown htotal
      · -- the body of an attempt that succeeds stays counted
        refine ⟨?_, rfl, rfl, rfl⟩
        simpa [Tally.Counts, Phase.counted] using hown
  | chunk bytes =>
    simp only [received]
    split
    · exact failWith_spec hown htotal
    · refine ⟨?_, ?_, rfl, rfl⟩
      · simp only [Tally.Counts, Phase.counted, Tally.add]
        omega
      · simp only [Tally.add]
        omega

theorem answered_counts {t : Tally} {range : Option ByteRange} {maxBytes : ℕ} (hown : t.own = t.earlier.sum) (a : Option Answer) :
    (answered t range maxBytes a).Counts ∧ (answered t range maxBytes a).own = t.own := by
  cases a with
  | none => exact ⟨hown, rfl⟩
  | some a =>
    simp only [answered]
    split
    · exact ⟨hown, rfl⟩
    · exact ⟨hown, rfl⟩

/-- A step of a fetch changes the total by what it changes its own count, but for what it keeps. -/
theorem stepFetch_spec {t : Tally} {c c' : Total} {e : FetchEvent} {o : Option Tally} (hcounts : t.Counts) (htotal : t.own ≤ c.total)
    (h : stepFetch t c e = some (o, c')) :
    (∀ t' ∈ o, t'.Counts) ∧ c'.total + c.kept + t.own = c.total + c'.kept + ownOf o ∧ c'.wrapped = c.wrapped := by
  unfold Tally.Counts at hcounts
  cases e with
  | attempt range maxBytes =>
    simp only [stepFetch] at h
    split at h
    next hphase =>
      cases h
      rw [hphase] at hcounts
      exact ⟨by simpa [Tally.Counts, Phase.counted] using hcounts, rfl, rfl⟩
    next => cases h
  | answer a =>
    simp only [stepFetch] at h
    split at h
    next range maxBytes hphase =>
      cases h
      rw [hphase] at hcounts
      obtain ⟨hnew, hown⟩ := @answered_counts t range maxBytes hcounts a
      refine ⟨by simpa using hnew, ?_, rfl⟩
      simp [ownOf, hown]
    next => cases h
  | piece p =>
    simp only [stepFetch] at h
    split at h
    next range tooLarge readLimit body hphase =>
      cases h
      rw [hphase] at hcounts
      obtain ⟨hnew, hsum, hkept, hwrapped⟩ :=
        @received_spec t c range tooLarge readLimit body hcounts htotal p
      refine ⟨by simpa using hnew, ?_, hwrapped⟩
      simp only [ownOf, Option.map_some, Option.getD_some]
      omega
    next => cases h
  | paced =>
    simp only [stepFetch] at h
    split at h
    next hphase =>
      cases h
      rw [hphase] at hcounts
      exact ⟨by simpa [Tally.Counts, Phase.counted] using hcounts, rfl, rfl⟩
    next => cases h
  | keep =>
    simp only [stepFetch] at h
    split at h
    next =>
      cases h
      refine ⟨by simp, ?_, ?_⟩
      · simp [Tally.keep, Tally.drop, fetchSub, ownOf]
        omega
      · simp [Tally.keep, Tally.drop]
    next => cases h
  | drop =>
    cases h
    refine ⟨by simp, ?_, ?_⟩
    · simp only [Tally.drop, fetchSub_of_le htotal, ownOf, Option.map_none, Option.getD_none]
      omega
    · simp [Tally.drop, htotal]

theorem sum_map_set {α : Type} (f : α → ℕ) {l : List α} {i : ℕ} {a : α} (h : l[i]? = some a) (b : α) :
    ((l.set i b).map f).sum + f a = (l.map f).sum + f b := by
  induction l generalizing i with
  | nil => cases h
  | cons x l ih =>
    cases i with
    | zero =>
      cases h
      simp only [List.set_cons_zero, List.map_cons, List.sum_cons]
      omega
    | succ i =>
      have hrest := ih h
      simp only [List.set_cons_succ, List.map_cons, List.sum_cons]
      omega

/-- What always holds of a download's counts. -/
structure Counted (start : ℕ) (s : Download) : Prop where
  total : s.counter.total = start + s.counter.kept + (s.tallies.map ownOf).sum
  own : ∀ t, some t ∈ s.tallies → t.Counts
  wrapped : s.counter.wrapped = false

theorem counted_step {start : ℕ} {s s' : Download} {e : DownloadEvent} (hs : Counted start s) (h : stepDownload s e = some s') :
    Counted start s' := by
  cases e with
  | begin =>
    cases h
    refine ⟨?_, ?_, hs.wrapped⟩
    · simpa [ownOf, Tally.new] using hs.total
    · intro t ht
      rcases List.mem_append.mp ht with ht | ht
      · exact hs.own t ht
      · cases List.mem_singleton.mp ht
        rfl
  | fetch i event =>
    simp only [stepDownload, Option.bind_eq_bind, Option.bind_eq_some_iff] at h
    obtain ⟨t, ht, ⟨o, c⟩, hstep, hs'⟩ := h
    cases hs'
    have hi : s.tallies[i]? = some (some t) := Option.join_eq_some_iff.mp ht
    have hmem : some t ∈ s.tallies := List.mem_of_getElem? hi
    have hle : t.own ≤ s.counter.total := by
      have hpart : ownOf (some t) ≤ (s.tallies.map ownOf).sum := List.single_le_sum (by simp) _ (List.mem_map_of_mem hmem)
      have htotal := hs.total
      simp only [ownOf, Option.map_some, Option.getD_some] at hpart
      omega
    obtain ⟨hcounts, hsum, hwrapped⟩ := stepFetch_spec (hs.own t hmem) hle hstep
    refine ⟨?_, ?_, hwrapped.trans hs.wrapped⟩
    · have hset := sum_map_set ownOf hi o
      have htotal := hs.total
      simp only [ownOf, Option.map_some, Option.getD_some] at hset hsum ⊢
      omega
    · intro t' ht'
      rcases List.mem_or_eq_of_mem_set ht' with hold | hnew
      · exact hs.own t' hold
      · exact hcounts t' hnew.symm

/-- In every order of steps of any number of fetches, the total is what the kept tallies counted and
the live ones count, every own count is that of the attempt in progress and of those not taken
back, and no subtraction has wrapped. -/
theorem counts_never_off (start : ℕ) : (downloading start).toTSys.Invariant fun s =>
    s.counter.total = start + s.counter.kept + (s.tallies.map ownOf).sum ∧
      (∀ t, some t ∈ s.tallies → t.own = t.earlier.sum + t.phase.counted) ∧ s.counter.wrapped = false := by
  intro s hreach
  have hcounted : Counted start s := by
    induction hreach with
    | init hinit =>
      cases hinit
      exact ⟨rfl, by simp, rfl⟩
    | step _ hstep ih =>
      obtain ⟨e, he⟩ := hstep
      exact counted_step ih he
  exact ⟨hcounted.total, hcounted.own, hcounted.wrapped⟩

end Hyperfetch.Hls
