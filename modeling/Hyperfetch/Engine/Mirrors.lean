import Mathlib.Tactic

/-!
# Which mirrors serve the same file (`engine.rs`)

`select_mirrors` over the first answers, and `admitLate` over those that come in
once the download runs. Every candidate is compared with one or two answers
(`mismatch`), never with the mirrors already in use. So sizes agree across
all mirrors, but two of them may carry different strong ETags when what they
were compared with has none: `mirrors_agree_iff` says exactly when.

A probe is what these functions read of it. Left out: the mirrors' records in
the racer and the URLs kept for a resume, which no comparison reads.
-/

namespace Hyperfetch

namespace Mirrors

/-- What a probe learned about one mirror. -/
structure ProbeInfo where
  url : String
  /-- `none` when the server does not tell. -/
  size : Option Nat
  acceptsRanges : Bool
  etag : Option String
  /-- How many of the file's first bytes came with the answer. -/
  prefetch : Nat
  deriving DecidableEq, Repr

/-- Not a weak ETag, which starts with `W/`. -/
def isStrong (etag : String) : Bool := !"W/".toList.isPrefixOf etag.toList

def ProbeInfo.strongEtag (m : ProbeInfo) : Option String := m.etag.filter isStrong

/-- The whole file came with the answer. -/
def ProbeInfo.whole (m : ProbeInfo) : Bool := m.size == some m.prefetch

def debugSize : Option Nat → String
  | some n => s!"Some({n})"
  | none => "None"

/-- Why mirror `m` cannot serve the download `reference` describes, if it cannot. -/
def mismatch (m reference : ProbeInfo) : Option String :=
  if m.size ≠ reference.size then
    some s!"size {debugSize m.size} differs from {debugSize reference.size}"
  else
    let ranges := if reference.acceptsRanges && !m.acceptsRanges then some "no range support" else none
    match m.strongEtag, reference.strongEtag with
    | some a, some b => if a ≠ b then some s!"ETag {a} differs from {b}" else ranges
    | _, _ => ranges

abbrev Probe := Except String ProbeInfo

def answers (probes : List Probe) : List ProbeInfo := probes.filterMap Except.toOption

def failures (probes : List Probe) : List String :=
  probes.filterMap fun
    | .error e => some e
    | .ok _ => none

/-- The answer that leads: the first, or if that one neither takes ranges nor
brought the whole file, a mirror serving it that takes ranges. -/
def leading (first : ProbeInfo) (ok : List ProbeInfo) : ProbeInfo :=
  if first.acceptsRanges || first.whole then first
  else (ok.find? fun m => m.acceptsRanges && (mismatch m first).isNone).getD first

/-- Picks the reference probe and keeps the mirrors that serve the same file. -/
def selectMirrors (probes : List Probe) : Except String (ProbeInfo × List ProbeInfo) :=
  match answers probes with
  | [] => .error ("Failed to probe file information: " ++ "; ".intercalate (failures probes))
  | first :: rest =>
    let reference := leading first (first :: rest)
    .ok (reference, (first :: rest).filter fun m =>
      ((mismatch m first).or (mismatch m reference)).isNone)

/-- Adds the mirror a probe that came in after the download started found, if
it serves the file `reference` describes. -/
def admitLate (reference : ProbeInfo) (mirrors : List ProbeInfo) : Probe → List ProbeInfo
  | .error _ => mirrors
  | .ok info => if (mismatch info reference).isSome then mirrors else mirrors ++ [info]

/-- Mirrors answering late only join a download over ranges. -/
def joins (reference : ProbeInfo) : Bool := reference.acceptsRanges && !reference.whole

/-- The mirrors of a download: those selected, and those that join later. -/
def download (probes late : List Probe) : Except String (List ProbeInfo) :=
  (selectMirrors probes).map fun (reference, mirrors) =>
    if joins reference then late.foldl (admitLate reference) mirrors else mirrors

/-! ## What is kept -/

/-- No two strong ETags, and one size. -/
structure Agree (a b : ProbeInfo) : Prop where
  size : a.size = b.size
  etag : ∀ x ∈ a.strongEtag, ∀ y ∈ b.strongEtag, x = y

/-- The same size, and ranges wherever `reference` takes them. -/
def Comparable (reference m : ProbeInfo) : Prop :=
  m.size = reference.size ∧ (reference.acceptsRanges = true → m.acceptsRanges = true)

/-- What `mismatch` lets pass. -/
theorem mismatch_none_iff {m reference : ProbeInfo} :
    mismatch m reference = none ↔ Comparable reference m ∧ Agree m reference := by
  unfold mismatch Comparable
  by_cases hsize : m.size = reference.size
  · have hranges : (if reference.acceptsRanges && !m.acceptsRanges then some "no range support" else none) =
        none ↔ (reference.acceptsRanges = true → m.acceptsRanges = true) := by
      cases reference.acceptsRanges <;> cases m.acceptsRanges <;> simp
    simp only [ne_eq, hsize, not_true_eq_false, if_false]
    split
    · rename_i a b ha hb
      by_cases hab : a = b
      · simp only [hab, not_true_eq_false, if_false, hranges, true_and]
        refine ⟨fun h => ⟨h, hsize, fun x hx y hy => ?_⟩, fun h => h.1⟩
        rw [ha] at hx
        rw [hb] at hy
        cases hx
        cases hy
        exact hab
      · simp only [hab, not_false_eq_true, if_true, reduceCtorEq, false_iff, not_and]
        exact fun _ h => hab (h.etag a ha b hb)
    · rename_i hnot
      rw [hranges]
      refine ⟨fun h => ⟨⟨trivial, h⟩, hsize, fun x hx y hy => ?_⟩, fun h => h.1.2⟩
      exact (hnot x y hx hy).elim
  · simp [hsize]

theorem mem_admitLate {reference m : ProbeInfo} {mirrors : List ProbeInfo} {probe : Probe} :
    m ∈ admitLate reference mirrors probe ↔
      m ∈ mirrors ∨ (probe = .ok m ∧ mismatch m reference = none) := by
  cases probe with
  | error e => simp [admitLate]
  | ok info =>
    simp only [admitLate, Except.ok.injEq]
    cases hm : mismatch info reference with
    | none =>
      simp only [Option.isSome_none, Bool.false_eq_true, if_false, List.mem_append, List.mem_singleton]
      constructor
      · rintro (h | rfl)
        · exact .inl h
        · exact .inr ⟨rfl, hm⟩
      · rintro (h | ⟨rfl, _⟩)
        · exact .inl h
        · exact .inr rfl
    | some reason =>
      simp only [Option.isSome_some, if_true]
      refine ⟨.inl, ?_⟩
      rintro (h | ⟨rfl, hnone⟩)
      · exact h
      · rw [hm] at hnone
        cases hnone

/-- However late answers are ordered, they join on their own merits. -/
theorem mem_foldl_admitLate {reference m : ProbeInfo} {late : List Probe} {mirrors : List ProbeInfo} :
    m ∈ late.foldl (admitLate reference) mirrors ↔
      m ∈ mirrors ∨ (m ∈ answers late ∧ mismatch m reference = none) := by
  induction late generalizing mirrors with
  | nil => simp [answers]
  | cons probe late ih =>
    have hcons : m ∈ answers (probe :: late) ↔ probe = .ok m ∨ m ∈ answers late := by
      cases probe <;> simp [answers, Except.toOption, eq_comm]
    rw [List.foldl_cons, ih, mem_admitLate, hcons]
    tauto

/-- The answers a download compares its mirrors among: the first ones, unless
the very first one's ETag rules them out, and those that come in late if any
may join. -/
def candidates (first : ProbeInfo) (probes late : List Probe) : List ProbeInfo :=
  (answers probes).filter (fun m => (mismatch m first).isNone) ++
    if joins (leading first (answers probes)) then answers late else []

/-- What a download keeps, once some probe answered. -/
theorem mem_download {probes late : List Probe} {first : ProbeInfo} {rest mirrors : List ProbeInfo}
    (hok : answers probes = first :: rest) (hd : download probes late = .ok mirrors) {m : ProbeInfo} :
    m ∈ mirrors ↔ m ∈ candidates first probes late ∧
      mismatch m (leading first (answers probes)) = none := by
  have hmirrors : mirrors = if joins (leading first (answers probes)) then
      late.foldl (admitLate (leading first (answers probes))) ((answers probes).filter fun m =>
        ((mismatch m first).or (mismatch m (leading first (answers probes)))).isNone)
      else (answers probes).filter fun m =>
        ((mismatch m first).or (mismatch m (leading first (answers probes)))).isNone := by
    simp only [download, selectMirrors, hok, Except.map, Except.ok.injEq] at hd ⊢
    exact hd.symm
  rw [hmirrors, candidates]
  split
  · rw [mem_foldl_admitLate]
    simp only [List.mem_filter, Option.isNone_iff_eq_none, Option.or_eq_none_iff, List.mem_append]
    tauto
  · simp only [List.mem_filter, Option.isNone_iff_eq_none, Option.or_eq_none_iff, List.append_nil]
    tauto

/-! ## When mirrors agree -/

/-- Any two mirrors of a download agree on the size. They agree on strong
ETags exactly if the leading answer has one, or the answers it was compared
with that have its size, and its ranges, carry one at most between them. -/
theorem mirrors_agree_iff {probes late : List Probe} {first : ProbeInfo} {rest mirrors : List ProbeInfo}
    (hok : answers probes = first :: rest) (hd : download probes late = .ok mirrors) :
    (∀ a ∈ mirrors, ∀ b ∈ mirrors, Agree a b) ↔
      (leading first (answers probes)).strongEtag.isSome = true ∨
        ∀ a ∈ candidates first probes late, ∀ b ∈ candidates first probes late,
          Comparable (leading first (answers probes)) a → Comparable (leading first (answers probes)) b →
            ∀ x ∈ a.strongEtag, ∀ y ∈ b.strongEtag, x = y := by
  have hkept := fun m => @mem_download probes late first rest mirrors hok hd m
  generalize leading first (answers probes) = reference at hkept ⊢
  constructor
  · intro hall
    by_cases htag : reference.strongEtag.isSome = true
    · exact .inl htag
    · refine .inr fun a ha b hb hca hcb => (hall a ?_ b ?_).etag
      -- without an ETag, the reference rules out nothing of its size and ranges
      · refine (hkept a).mpr ⟨ha, mismatch_none_iff.mpr ⟨hca, hca.1, fun x _ y hy => ?_⟩⟩
        exact (htag (Option.isSome_iff_exists.mpr ⟨y, hy⟩)).elim
      · refine (hkept b).mpr ⟨hb, mismatch_none_iff.mpr ⟨hcb, hcb.1, fun x _ y hy => ?_⟩⟩
        exact (htag (Option.isSome_iff_exists.mpr ⟨y, hy⟩)).elim
  · intro hcond a ha b hb
    obtain ⟨hacand, hamis⟩ := (hkept a).mp ha
    obtain ⟨hbcand, hbmis⟩ := (hkept b).mp hb
    obtain ⟨hca, haref⟩ := mismatch_none_iff.mp hamis
    obtain ⟨hcb, hbref⟩ := mismatch_none_iff.mp hbmis
    refine ⟨hca.1.trans hcb.1.symm, ?_⟩
    rcases hcond with htag | hone
    · obtain ⟨t, ht⟩ := Option.isSome_iff_exists.mp htag
      intro x hx y hy
      exact (haref.etag x hx t ht).trans (hbref.etag y hy t ht).symm
    · exact hone a hacand b hbcand hca hcb

/-- A mirror of a file of a thousand bytes. -/
def thousand (url : String) (etag : Option String) : ProbeInfo := ⟨url, some 1000, true, etag, 0⟩

/-- With an ETag to go by, a stale copy is left out, early or late. -/
theorem mirrors_agree_tagged : Agree (thousand "a" (some "A")) (thousand "d" none) := by
  have hd : download [.ok (thousand "a" (some "A")), .ok (thousand "b" (some "B"))]
      [.ok (thousand "c" (some "B")), .ok (thousand "d" none)] =
        .ok [thousand "a" (some "A"), thousand "d" none] := rfl
  exact (@mirrors_agree_iff _ _ (thousand "a" (some "A")) _ _ rfl hd).mpr (.inl rfl) _ (by simp) _ (by simp)

/-- Without one, two versions of the file come to be mirrors together. -/
theorem two_versions_kept :
    ¬ ∀ probes late mirrors, download probes late = .ok mirrors →
      ∀ a ∈ mirrors, ∀ b ∈ mirrors, Agree a b := by
  intro hall
  have hkept : download [.ok (thousand "a" none), .ok (thousand "b" (some "A")), .ok (thousand "c" (some "B"))]
      [] = .ok [thousand "a" none, thousand "b" (some "A"), thousand "c" (some "B")] := rfl
  have hagree := hall _ _ _ hkept (thousand "b" (some "A")) (by simp) (thousand "c" (some "B")) (by simp)
  exact absurd (hagree.etag "A" rfl "B" rfl) (by decide)

end Mirrors

end Hyperfetch
