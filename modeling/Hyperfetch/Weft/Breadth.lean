import Mathlib.Data.List.Shortlex
import Mathlib.Tactic

/-!
# Breadth first

A graph whose nodes list their edges in order, walked breadth first. A route is the places of
its edges; routes are ordered by length, then by their places. The walk comes to every
node that can be reached, and to each by the first of its routes (`Breadth.least`).
-/

namespace Weft

open List (Shortlex)

/-- Routes in order: shorter ones first, those of one length by their places. -/
def Before (r s : List ℕ) : Prop := Shortlex (· < ·) r s

theorem Before.irrefl (r : List ℕ) : ¬ Before r r := fun h => (Std.Asymm.asymm (r := Shortlex (· < ·)) r r h) h

theorem before_or (r s : List ℕ) : Before r s ∨ r = s ∨ Before s r := by
  rcases Classical.em (Before r s) with h | h
  · exact .inl h
  · rcases Classical.em (Before s r) with h' | h'
    · exact .inr (.inr h')
    · exact .inr (.inl (Std.Trichotomous.trichotomous (r := Shortlex (· < ·)) r s h h'))

theorem Before.trans {r s t : List ℕ} (hrs : Before r s) (hst : Before s t) : Before r t := by
  rcases List.shortlex_def.mp hrs with h₁ | ⟨h₁, hlex₁⟩
  · rcases List.shortlex_def.mp hst with h₂ | ⟨h₂, -⟩
    · exact Shortlex.of_length_lt (h₁.trans h₂)
    · exact Shortlex.of_length_lt (h₂ ▸ h₁)
  · rcases List.shortlex_def.mp hst with h₂ | ⟨h₂, hlex₂⟩
    · exact Shortlex.of_length_lt (h₁ ▸ h₂)
    · exact Shortlex.of_lex (h₁.trans h₂) (List.lt_trans hlex₁ hlex₂)

theorem Before.snoc (r : List ℕ) (i : ℕ) : Before r (r ++ [i]) := by
  refine Shortlex.of_length_lt ?_
  simp

theorem lex_append {r s : List ℕ} (h : List.Lex (· < ·) r s) (hlen : r.length = s.length) (t u : List ℕ) :
    List.Lex (· < ·) (r ++ t) (s ++ u) := by
  induction h with
  | nil => cases hlen
  | rel h => exact .rel h
  | cons _ ih => exact .cons (ih (Nat.succ_inj.mp hlen))

/-- What goes on behind routes, equally long, does not change their order. -/
theorem Before.append {r s : List ℕ} (h : Before r s) {t u : List ℕ} (hlen : t.length = u.length) : Before (r ++ t) (s ++ u) := by
  rcases List.shortlex_def.mp h with hlt | ⟨heq, hlex⟩
  · refine Shortlex.of_length_lt ?_
    rw [List.length_append, List.length_append]
    omega
  · refine Shortlex.of_lex ?_ (lex_append hlex heq t u)
    rw [List.length_append, List.length_append, heq, hlen]

/-- A route is not after what goes on from it. -/
theorem before_or_eq_of_prefix {r s : List ℕ} (h : r <+: s) : Before r s ∨ r = s := by
  obtain ⟨t, rfl⟩ := h
  cases t with
  | nil => exact .inr (List.append_nil r).symm
  | cons i t =>
    refine .inl (Shortlex.of_length_lt ?_)
    rw [List.length_append, List.length_cons]
    omega

/-! ## Routes in a graph -/

section

variable {ν ε : Type*} (out : ν → List ε) (target : ε → ν)

/-- The edges of a route, if there are edges at its places. -/
def edges : ν → List ℕ → Option (List ε)
  | _, [] => some []
  | x, i :: r => ((out x)[i]?).bind fun e => (edges (target e) r).map (e :: ·)

/-- Where a route ends. -/
def follow : ν → List ℕ → Option ν
  | x, [] => some x
  | x, i :: r => ((out x)[i]?).bind fun e => follow (target e) r

/-- The first of the routes to `x`. -/
def Least (root x : ν) (r : List ℕ) : Prop :=
  follow out target root r = some x ∧ ∀ s, follow out target root s = some x → ¬ Before s r

variable {out target}

theorem follow_append (x : ν) (r s : List ℕ) :
    follow out target x (r ++ s) = (follow out target x r).bind fun y => follow out target y s := by
  induction r generalizing x with
  | nil => rfl
  | cons i r ih =>
    rw [List.cons_append, follow, follow, Option.bind_assoc]
    congr 1
    funext e
    exact ih (target e)

theorem follow_snoc {root x : ν} {r : List ℕ} (h : follow out target root r = some x) (i : ℕ) :
    follow out target root (r ++ [i]) = (out x)[i]?.map target := by
  rw [follow_append, h, Option.bind_some, follow]
  cases (out x)[i]? with
  | none => rfl
  | some e => rfl

theorem edges_snoc {root x : ν} {r : List ℕ} {es : List ε} (hes : edges out target root r = some es)
    (hx : follow out target root r = some x) {i : ℕ} {e : ε} (he : (out x)[i]? = some e) :
    edges out target root (r ++ [i]) = some (es ++ [e]) := by
  induction r generalizing root es with
  | nil =>
    cases hes
    cases hx
    show ((out x)[i]?).bind _ = _
    rw [he]
    rfl
  | cons j r ih =>
    rw [edges] at hes
    rw [follow] at hx
    obtain ⟨d, hd, hes⟩ := Option.bind_eq_some_iff.mp hes
    rw [hd, Option.bind_some] at hx
    obtain ⟨ds, hds, rfl⟩ := Option.map_eq_some_iff.mp hes
    rw [List.cons_append, edges, hd, Option.bind_some, ih hds hx]
    rfl

/-- A route that ends somewhere has its edges. -/
theorem exists_edges {root x : ν} {r : List ℕ} (h : follow out target root r = some x) : ∃ es, edges out target root r = some es := by
  induction r generalizing root with
  | nil => exact ⟨[], rfl⟩
  | cons i r ih =>
    rw [follow] at h
    obtain ⟨e, he, h⟩ := Option.bind_eq_some_iff.mp h
    obtain ⟨es, hes⟩ := ih h
    refine ⟨e :: es, ?_⟩
    rw [edges, he, Option.bind_some, hes]
    rfl

/-- A route does not leave what its edges do not lead out of. -/
theorem follow_closed {p : ν → Prop} (hp : ∀ x, p x → ∀ e ∈ out x, p (target e)) {root x : ν} {r : List ℕ} (hroot : p root)
    (h : follow out target root r = some x) : p x := by
  induction r generalizing root with
  | nil =>
    cases h
    exact hroot
  | cons i r ih =>
    rw [follow] at h
    obtain ⟨e, he, h⟩ := Option.bind_eq_some_iff.mp h
    exact ih (hp root hroot e (List.mem_of_getElem? he)) h

theorem exists_least {root x : ν} {r : List ℕ} (h : follow out target root r = some x) : ∃ m, Least out target root x m := by
  have hwf : WellFounded Before := Shortlex.wf Nat.lt_wfRel.wf
  obtain ⟨m, hm, hmin⟩ := hwf.has_min {s | follow out target root s = some x} ⟨r, h⟩
  exact ⟨m, hm, hmin⟩

theorem Least.unique {root x : ν} {r s : List ℕ} (hr : Least out target root x r) (hs : Least out target root x s) : r = s := by
  rcases before_or r s with h | h | h
  · exact absurd h (hs.2 r hr.1)
  · exact h
  · exact absurd h (hr.2 s hs.1)

/-- What a first route goes through it comes to first. -/
theorem Least.of_append {root x y : ν} {r t : List ℕ} (h : Least out target root x (r ++ t)) (hr : follow out target root r = some y) :
    Least out target root y r := by
  refine ⟨hr, ?_⟩
  intro s hs hlt
  refine h.2 (s ++ t) ?_ (hlt.append rfl)
  have hx := h.1
  rw [follow_append, hr, Option.bind_some] at hx
  rw [follow_append, hs, Option.bind_some, hx]

/-! ## The walk -/

/-- A walk that visited `visits`, each by a route, and has `queue` still to come to. -/
structure Breadth (out : ν → List ε) (target : ε → ν) (root : ν) (visits queue : List (List ℕ × ν)) : Prop where
  follows : ∀ e ∈ visits ++ queue, follow out target root e.1 = some e.2
  sorted : (visits ++ queue).Pairwise fun a b => Before a.1 b.1
  /-- What waits was pushed when a node was visited. -/
  born : ∀ e ∈ queue, e.1 = [] ∨ ∃ p i, e.1 = p ++ [i] ∧ p ∈ visits.map Prod.fst
  /-- A first route has been walked, or a part of it waits. -/
  complete : ∀ x m, Least out target root x m → x ∈ visits.map Prod.snd ∨ ∃ e ∈ queue, e.1 <+: m
  least : ∀ e ∈ visits, Least out target root e.2 e.1
  nodup : (visits.map Prod.snd).Nodup

/-- What is pushed when a node is visited. -/
def pushed (out : ν → List ε) (target : ε → ν) (r : List ℕ) (x : ν) : List (List ℕ × ν) :=
  (out x).mapIdx fun i e => (r ++ [i], target e)

namespace Breadth

variable {root : ν} {visits queue : List (List ℕ × ν)} {r : List ℕ} {x : ν}

theorem start : Breadth out target root [] [([], root)] where
  follows := by simp [follow]
  sorted := List.pairwise_singleton _ _
  born := by simp
  complete := fun y m _ => .inr ⟨([], root), List.mem_singleton_self _, List.nil_prefix⟩
  least := by simp
  nodup := List.nodup_nil

/-- The next that waits is not after a part of a first route that waits. -/
theorem not_after (h : Breadth out target root visits ((r, x) :: queue)) {e : List ℕ × ν} (he : e ∈ (r, x) :: queue) :
    Before r e.1 ∨ r = e.1 := by
  rcases List.mem_cons.mp he with rfl | he
  · exact .inr rfl
  · exact .inl ((List.pairwise_cons.mp (List.pairwise_append.mp h.sorted).2.1).1 e he)

/-- A node that is visited again is passed over. -/
theorem skip (h : Breadth out target root visits ((r, x) :: queue)) (hx : x ∈ visits.map Prod.snd) :
    Breadth out target root visits queue := by
  have hsub : (visits ++ queue).Sublist (visits ++ (r, x) :: queue) := (List.sublist_cons_self _ _).append_left visits
  refine ⟨fun e he => h.follows e (hsub.subset he), h.sorted.sublist hsub, fun e he => h.born e (List.mem_cons_of_mem _ he), ?_,
    h.least, h.nodup⟩
  intro y m hm
  rcases h.complete y m hm with hy | ⟨e, he, hprefix⟩
  · exact .inl hy
  · rcases List.mem_cons.mp he with rfl | he
    · -- the part would be the first route to a node that was visited, and so have been walked
      exfalso
      obtain ⟨t, rfl⟩ := hprefix
      have hr : follow out target root r = some x := h.follows (r, x) (by simp)
      obtain ⟨v, hv, rfl⟩ := List.mem_map.mp hx
      have heq : v.1 = r := (h.least v hv).unique (hm.of_append hr)
      have hlt := (List.pairwise_append.mp h.sorted).2.2 v hv (r, v.2) List.mem_cons_self
      rw [heq] at hlt
      exact Before.irrefl r hlt
    · exact .inr ⟨e, he, hprefix⟩

theorem next_least (h : Breadth out target root visits ((r, x) :: queue)) (hx : x ∉ visits.map Prod.snd) : Least out target root x r := by
  have hr : follow out target root r = some x := h.follows (r, x) (by simp)
  obtain ⟨m, hm⟩ := exists_least hr
  obtain ⟨e, he, hprefix⟩ := (h.complete x m hm).resolve_left hx
  have hle := before_or_eq_of_prefix hprefix
  rcases before_or m r with hlt | rfl | hgt
  · exfalso
    -- the part of `m` that waits is before `r`, which is the first that waits
    have hbefore : Before e.1 r := by
      rcases hle with hlt' | heq
      · exact hlt'.trans hlt
      · exact heq ▸ hlt
    rcases h.not_after he with h' | h'
    · exact Before.irrefl r (h'.trans hbefore)
    · exact Before.irrefl r (h' ▸ hbefore)
  · exact hm
  · exact absurd hgt (hm.2 r hr)

/-- A node that was not visited is, and its edges wait behind the others. -/
theorem visit (h : Breadth out target root visits ((r, x) :: queue)) (hx : x ∉ visits.map Prod.snd) :
    Breadth out target root (visits ++ [(r, x)]) (queue ++ pushed out target r x) := by
  have hr : follow out target root r = some x := h.follows (r, x) (by simp)
  have hleast := h.next_least hx
  have hvisits : ∀ e ∈ visits, Before e.1 r := fun e he =>
    (List.pairwise_append.mp h.sorted).2.2 e he (r, x) List.mem_cons_self
  have hold : visits ++ (r, x) :: queue = (visits ++ [(r, x)]) ++ queue := by simp
  have hpushed : ∀ e ∈ pushed out target r x, ∃ i, e.1 = r ++ [i] ∧ follow out target root e.1 = some e.2 := by
    intro e he
    obtain ⟨i, hi, rfl⟩ := List.mem_mapIdx.mp he
    refine ⟨i, rfl, ?_⟩
    rw [follow_snoc hr, List.getElem?_eq_getElem hi]
    rfl
  refine ⟨?_, ?_, ?_, ?_, ?_, ?_⟩
  · intro e he
    rw [← List.append_assoc, ← hold] at he
    rcases List.mem_append.mp he with he | he
    · exact h.follows e he
    · obtain ⟨i, -, hfollow⟩ := hpushed e he
      exact hfollow
  · rw [← List.append_assoc, ← hold]
    refine List.pairwise_append.mpr ⟨h.sorted, ?_, ?_⟩
    · rw [pushed, List.pairwise_iff_getElem]
      intro i j hi hj hij
      rw [List.getElem_mapIdx, List.getElem_mapIdx]
      exact List.Shortlex.append_left ((List.shortlex_singleton_iff i j).mpr hij) r
    · intro a ha b hb
      obtain ⟨i, hi, -⟩ := hpushed b hb
      rw [hi]
      rcases List.mem_append.mp ha with ha | ha
      · exact (hvisits a ha).trans (Before.snoc r i)
      · rcases List.mem_cons.mp ha with rfl | ha
        · exact Before.snoc r i
        · rcases h.born a (List.mem_cons_of_mem _ ha) with hnil | ⟨p, j, hp, hmem⟩
          · rw [hnil]
            refine Shortlex.of_length_lt ?_
            simp
          · obtain ⟨v, hv, rfl⟩ := List.mem_map.mp hmem
            rw [hp]
            exact (hvisits v hv).append rfl
  · intro e he
    rcases List.mem_append.mp he with he | he
    · rcases h.born e (List.mem_cons_of_mem _ he) with hnil | ⟨p, i, hp, hmem⟩
      · exact .inl hnil
      · exact .inr ⟨p, i, hp, by simp [List.map_append, hmem]⟩
    · obtain ⟨i, hi, -⟩ := hpushed e he
      exact .inr ⟨r, i, hi, by simp⟩
  · intro y m hm
    rcases h.complete y m hm with hy | ⟨e, he, hprefix⟩
    · exact .inl (by simp [List.map_append, hy])
    · rcases List.mem_cons.mp he with rfl | he
      · -- the route goes on from the node by one of its edges, or ends there
        obtain ⟨t, rfl⟩ := hprefix
        cases t with
        | nil =>
          have hy := hm.1
          rw [List.append_nil, hr, Option.some.injEq] at hy
          exact .inl (by simp [hy])
        | cons i t =>
          have hy := hm.1
          rw [follow_append, hr, Option.bind_some, follow] at hy
          obtain ⟨e, hedge, -⟩ := Option.bind_eq_some_iff.mp hy
          refine .inr ⟨(r ++ [i], target e), List.mem_append_right _ ?_, ⟨t, by simp⟩⟩
          rw [pushed, List.mem_mapIdx]
          obtain ⟨hi, rfl⟩ := List.getElem?_eq_some_iff.mp hedge
          exact ⟨i, hi, rfl⟩
      · exact .inr ⟨e, List.mem_append_left _ he, hprefix⟩
  · intro e he
    rcases List.mem_append.mp he with he | he
    · exact h.least e he
    · rw [List.mem_singleton.mp he]
      exact hleast
  · rw [List.map_append, List.map_singleton]
    refine List.nodup_append.mpr ⟨h.nodup, List.nodup_singleton x, ?_⟩
    rintro a ha b hb rfl
    have hax : a = x := List.mem_singleton.mp hb
    exact hx (hax ▸ ha)

/-- When nothing waits every node that can be reached was visited. -/
theorem mem_visits (h : Breadth out target root visits []) {y : ν} :
    y ∈ visits.map Prod.snd ↔ ∃ s, follow out target root s = some y := by
  constructor
  · intro hy
    obtain ⟨v, hv, rfl⟩ := List.mem_map.mp hy
    exact ⟨v.1, (h.least v hv).1⟩
  · rintro ⟨s, hs⟩
    obtain ⟨m, hm⟩ := exists_least hs
    rcases h.complete y m hm with hy | ⟨e, he, -⟩
    · exact hy
    · cases he

end Breadth

end

end Weft
