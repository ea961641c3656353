import Hyperfetch.Queue.Items
import Mathlib.Data.List.TakeWhile

/-!
# What starts next (`next_to_start`, `mark_started`, `download_next`)

The waiting items start in the list's order within a priority (`order`), each when
it is the first that may (`startable`). A start makes none of the others startable:
it takes a place and can only conflict with them. So the loop of starts is one pass
over that order (`greedy_starts`).
-/

namespace Hyperfetch.Queue

open Weft

namespace DownloadQueue

variable {U P : Type} {q : DownloadQueue U P}

/-! ## Items by their id -/

theorem getItem_eq_some {id : Nat} {item : QueueItem U P} :
    q.getItem id = some item ↔ item ∈ q.items ∧ item.id = id := by
  constructor
  · intro h
    exact ⟨List.mem_of_find?_eq_some h, by simpa using List.find?_some h⟩
  · rintro ⟨hitem, rfl⟩
    obtain ⟨before, after, hsplit⟩ := List.append_of_mem hitem
    refine List.find?_eq_some_iff_append.mpr ⟨by simp, before, after, hsplit, fun other hother => ?_⟩
    have hnodup := q.ids_nodup
    rw [hsplit, List.map_append, List.map_cons, List.nodup_middle, List.nodup_cons, List.mem_append] at hnodup
    have hne : other.id ≠ item.id := fun heq => hnodup.1 (Or.inl (List.mem_map.mpr ⟨other, hother, heq⟩))
    simpa using hne

theorem getItem_of_mem {item : QueueItem U P} (h : item ∈ q.items) : q.getItem item.id = some item :=
  getItem_eq_some.mpr ⟨h, rfl⟩

theorem eq_of_id {item other : QueueItem U P} (h : item ∈ q.items) (hother : other ∈ q.items) (heq : item.id = other.id) :
    item = other := by
  have hfound := getItem_of_mem h
  rw [heq, getItem_of_mem hother] at hfound
  exact (Option.some.inj hfound).symm

/-! ## The order of starting -/

/-- The items, those of a higher priority first, each priority's in their order. -/
def byPriority (items : List (QueueItem U P)) : List (QueueItem U P) :=
  Priority.all.flatMap fun priority => items.filter (·.priority == priority)

theorem byPriority_sorted (items : List (QueueItem U P)) :
    (byPriority items).Pairwise fun a b => a.priority ≤ b.priority := by
  have hof : ∀ {p : Priority} {item}, item ∈ items.filter (·.priority == p) → item.priority = p := by
    intro p item h
    simpa using List.of_mem_filter h
  rw [byPriority, List.pairwise_flatMap]
  constructor
  · intro p _
    refine List.pairwise_of_forall_mem_list fun a ha b hb => ?_
    rw [hof ha, hof hb]
  · have hsorted : Priority.all.Pairwise (· ≤ ·) := by decide
    exact hsorted.imp fun hle a ha b hb => by rwa [hof ha, hof hb]

/-- Within a priority nothing changes places. -/
theorem byPriority_stable (items : List (QueueItem U P)) (p : Priority) :
    (byPriority items).filter (·.priority == p) = items.filter (·.priority == p) := by
  have hother : ∀ other, other ≠ p →
      (items.filter (·.priority == other)).filter (·.priority == p) = [] := by
    intro other hne
    rw [List.filter_eq_nil_iff]
    intro item h hp
    exact hne ((by simpa using List.of_mem_filter h : item.priority = other).symm.trans (by simpa using hp))
  have hself : (items.filter (·.priority == p)).filter (·.priority == p) = items.filter (·.priority == p) :=
    List.filter_eq_self.mpr fun _ => List.of_mem_filter
  cases p <;> simp only [byPriority, Priority.all, List.flatMap_cons, List.flatMap_nil, List.filter_append, hself,
    hother, ne_eq, reduceCtorEq, not_false_eq_true, List.append_nil, List.nil_append]

theorem byPriority_perm (items : List (QueueItem U P)) : (byPriority items).Perm items := by
  induction items with
  | nil => exact List.Perm.refl _
  | cons item items ih =>
    have hcons := ih.cons item
    simp only [byPriority, Priority.all, List.flatMap_cons, List.flatMap_nil, List.append_nil] at hcons ⊢
    refine List.Perm.trans ?_ hcons
    cases hp : item.priority with
    | high => simp [hp]
    | normal => simp [hp, List.perm_middle]
    | low =>
      have hmiddle := @List.perm_middle _ item (items.filter (·.priority == .high) ++ items.filter (·.priority == .normal))
        (items.filter (·.priority == .low))
      rw [List.append_assoc, List.append_assoc] at hmiddle
      simp only [List.filter_cons, hp]
      exact hmiddle

theorem mem_byPriority {items : List (QueueItem U P)} {item : QueueItem U P} :
    item ∈ byPriority items ↔ item ∈ items :=
  (byPriority_perm items).mem_iff

/-- `sorted` has the items, those of a higher priority first, and those of one
priority in their order. -/
structure StableOrder (items sorted : List (QueueItem U P)) : Prop where
  perm : sorted.Perm items
  ordered : sorted.Pairwise fun a b => a.priority ≤ b.priority
  stable : ∀ p, sorted.filter (·.priority == p) = items.filter (·.priority == p)

theorem stableOrder_byPriority (items : List (QueueItem U P)) : StableOrder items (byPriority items) :=
  ⟨byPriority_perm items, byPriority_sorted items, byPriority_stable items⟩

/-- The ids in the order they start in. -/
def order (q : DownloadQueue U P) : List Nat := (byPriority q.items).map (·.id)

/-- A change that keeps ids and priorities keeps the order. -/
theorem order_update {id : Nat} {f : QueueItem U P → QueueItem U P} {hf : ∀ item, (f item).id = item.id}
    (hpriority : ∀ item, (f item).priority = item.priority) : (q.update id f hf).order = q.order := by
  have hid : ∀ item, (if item.id = id then f item else item).id = item.id := by
    intro item
    split <;> simp [hf]
  have hp : ∀ item, (if item.id = id then f item else item).priority = item.priority := by
    intro item
    split <;> simp [hpriority]
  simp only [order, byPriority, update, List.map_flatMap, List.filter_map, List.map_map, Function.comp_def, hid, hp]

theorem order_length (q : DownloadQueue U P) : q.order.length = q.items.length := by
  rw [order, List.length_map, (byPriority_perm q.items).length_eq]

theorem order_nodup (q : DownloadQueue U P) : q.order.Nodup :=
  ((byPriority_perm q.items).map _).nodup_iff.mpr q.ids_nodup

/-! ## What may start -/

section

variable [DecidableEq U] [DecidableEq P]

theorem activeConflict_eq_none {item : QueueItem U P} (h : item ∈ q.items) :
    q.activeConflict item.id = none ↔
      ∀ other ∈ q.items, other.id ≠ item.id → other.status.isActive = true → item.conflictsWith other = false := by
  simp only [activeConflict, getItem_of_mem h, Option.bind_eq_bind, Option.bind_some, Option.bind_eq_none_iff,
    reduceCtorEq]
  rw [show (∀ other, q.items.find? _ = some other → False) ↔ _ from Option.eq_none_iff_forall_ne_some.symm,
    List.find?_eq_none]
  simp

/-- The item waits, is not held back and is in conflict with nothing that runs. -/
def startable (q : DownloadQueue U P) (skip : Nat → Bool) (item : QueueItem U P) : Bool :=
  item.waiting && !skip item.id && (q.activeConflict item.id).isNone

/-- The queue may start another, and this one is startable. -/
def ready (q : DownloadQueue U P) (maxConcurrent : Nat) (skip : Nat → Bool) (id : Nat) : Bool :=
  q.mayStart maxConcurrent && (q.getItem id).any (q.startable skip)

theorem ready_eq_true {maxConcurrent : Nat} {skip : Nat → Bool} {id : Nat} :
    q.ready maxConcurrent skip id = true ↔
      q.mayStart maxConcurrent = true ∧ ∃ item ∈ q.items, item.id = id ∧ q.startable skip item = true := by
  simp only [ready, Bool.and_eq_true, Option.any_eq_true, getItem_eq_some, and_assoc]

theorem startable_eq_true {skip : Nat → Bool} {item : QueueItem U P} (h : item ∈ q.items) :
    q.startable skip item = true ↔
      item.waiting = true ∧ skip item.id = false ∧
        ∀ other ∈ q.items, other.id ≠ item.id → other.status.isActive = true → item.conflictsWith other = false := by
  rw [startable, Bool.and_eq_true, Bool.and_eq_true, Option.isNone_iff_eq_none, activeConflict_eq_none h, and_assoc,
    Bool.not_eq_true']

/-- The next one is the first ready one in the order of starting. -/
theorem nextToStart_eq (maxConcurrent : Nat) (skip : Nat → Bool) :
    q.nextToStart maxConcurrent skip = q.order.find? (q.ready maxConcurrent skip) := by
  unfold nextToStart
  cases hroom : q.mayStart maxConcurrent with
  | false =>
    symm
    simp [List.find?_eq_none, ready, hroom]
  | true =>
    have hready : (byPriority q.items).find? (q.ready maxConcurrent skip ∘ (·.id)) =
        (byPriority q.items).find? (q.startable skip) := by
      refine List.find?_congr fun item hitem => ?_
      simp [ready, hroom, getItem_of_mem (mem_byPriority.mp hitem)]
    have hfirst : ∀ priority, (q.items.find? fun item =>
        item.priority == priority && (item.status == .queued && !skip item.id && (q.activeConflict item.id).isNone)) =
          (q.items.filter (·.priority == priority)).find? (q.startable skip) := by
      intro priority
      rw [List.find?_filter]
      congr 1
      funext item
      rw [Bool.eq_iff_iff, decide_eq_true_iff, Bool.and_eq_true]
      rfl
    rw [order, List.find?_map]
    simp only [Bool.not_true, Bool.false_eq_true, if_false, hfirst]
    rw [hready, byPriority, List.find?_flatMap]
    rfl

/-! ## A run of starts -/

variable {isRedacted : U → Bool}

omit [DecidableEq U] [DecidableEq P] in
theorem mem_markStarted {id : Nat} {item : QueueItem U P} :
    item ∈ (q.markStarted isRedacted id).2.items ↔
      ∃ before ∈ q.items, item = if before.id = id then (before.start isRedacted).2 else before := by
  simp only [markStarted, update, List.mem_map, eq_comm]

/-- `now` is what starts have made of `q`: its order is the same, and what waits in
it waited from the first. -/
structure StartedFrom (q now : DownloadQueue U P) : Prop where
  order_eq : now.order = q.order
  waited : ∀ item ∈ now.items, item.waiting = true → item ∈ q.items

omit [DecidableEq U] [DecidableEq P] in
theorem StartedFrom.markStarted {now : DownloadQueue U P} (h : StartedFrom q now) (id : Nat) :
    StartedFrom q (now.markStarted isRedacted id).2 where
  order_eq := (@order_update U P now id _ QueueItem.start_id QueueItem.start_priority).trans h.order_eq
  waited := by
    intro item hitem hwaiting
    obtain ⟨before, hbefore, rfl⟩ := mem_markStarted.mp hitem
    split at hwaiting
    next => simp [QueueItem.start_not_waiting] at hwaiting
    next hne =>
      rw [if_neg hne]
      exact h.waited before hbefore hwaiting

/-- Starting goes through the order once: what a start passed over stays unready. -/
theorem greedy_starts (q : DownloadQueue U P) (maxConcurrent : Nat) (skip : Nat → Bool) :
    Greedy (nextToStart · maxConcurrent skip) (fun q id => ready q maxConcurrent skip id)
      (fun q id => (markStarted isRedacted q id).2) q.order (StartedFrom q) where
  pick_eq := fun hs => hs.order_eq ▸ nextToStart_eq maxConcurrent skip
  keeps := fun hs _ => hs.markStarted _
  spent := by
    intro q id _ _
    rw [Bool.eq_false_iff, ne_eq, ready_eq_true]
    rintro ⟨-, item, hitem, hid, hstart⟩
    obtain ⟨before, -, rfl⟩ := mem_markStarted.mp hitem
    have hwaiting := ((startable_eq_true hitem).mp hstart).1
    split at hid
    next hsame => simp [hsame, QueueItem.start_not_waiting] at hwaiting
    next hother => exact hother hid
  antitone := by
    intro q id other _ hready hnot
    rw [Bool.eq_false_iff, ne_eq, ready_eq_true] at hnot ⊢
    rintro ⟨-, item, hitem, hid, hstart⟩
    obtain ⟨hroom, started, hstarted, rfl, hmay⟩ := ready_eq_true.mp hready
    obtain ⟨before, hbefore, rfl⟩ := mem_markStarted.mp hitem
    obtain ⟨hwaiting, hskip, hfree⟩ := (startable_eq_true hitem).mp hstart
    -- it is not the one started, so it is as it was, and so are those that ran
    by_cases hsame : before.id = started.id
    · simp [hsame, QueueItem.start_not_waiting] at hwaiting
    rw [if_neg hsame] at hid hwaiting hskip hfree
    refine hnot ⟨hroom, before, hbefore, hid, (startable_eq_true hbefore).mpr ⟨hwaiting, hskip, ?_⟩⟩
    intro running hrunning hne hactive
    have hwaits := ((startable_eq_true hstarted).mp hmay).1
    have hnot_started : running.id ≠ started.id := by
      intro heq
      rw [eq_of_id hrunning hstarted heq, eq_of_beq hwaits] at hactive
      exact absurd hactive (by decide)
    refine hfree running (mem_markStarted.mpr ⟨running, hrunning, ?_⟩) hne hactive
    rw [if_neg hnot_started]

omit [DecidableEq U] [DecidableEq P] in
theorem StartedFrom.refl (q : DownloadQueue U P) : StartedFrom q q where
  order_eq := rfl
  waited := fun _ h _ => h

omit [DecidableEq U] [DecidableEq P] in
/-- Starting items one after the other starts just these. -/
theorem items_starts {ids : List Nat} (hids : ids.Nodup) (q : DownloadQueue U P) :
    (ids.foldl (fun q id => (markStarted isRedacted q id).2) q).items =
      q.items.map fun item => if item.id ∈ ids then (item.start isRedacted).2 else item := by
  induction ids generalizing q with
  | nil => simp
  | cons id ids ih =>
    obtain ⟨hnew, hids⟩ := List.nodup_cons.mp hids
    rw [List.foldl_cons, ih hids, DownloadQueue.markStarted, update, List.map_map]
    refine List.map_congr_left fun item _ => ?_
    by_cases hid : item.id = id
    · simp [hid, hnew]
    · simp [hid]

/-- Starting by repeated `next_to_start` and `mark_started`, for a limit and what is held back. -/
structure StartsInOrder (isRedacted : U → Bool) (q : DownloadQueue U P) (maxConcurrent : Nat) (skip : Nat → Bool)
    (tried : List (DownloadQueue U P × Nat)) (left : DownloadQueue U P) : Prop where
  /-- What is tried is tried in the order of starting, each once, -/
  in_order : (tried.map (·.2)).Sublist q.order
  /-- each when there was room and it was the first that waited, was not held back and had no
  link and no target of an active item. -/
  next : ∀ turn ∈ tried, turn.1.mayStart maxConcurrent = true ∧
    q.order.find? (turn.1.ready maxConcurrent skip) = some turn.2 ∧
    ∃ item ∈ q.items, item ∈ turn.1.items ∧ item.id = turn.2 ∧ item.status = .queued ∧ skip item.id = false ∧
      ∀ active ∈ turn.1.items, active.status.isActive = true → active.id ≠ item.id →
        (∀ url ∈ item.urls, url ∉ active.urls) ∧ ∀ path, item.targetPath = some path → active.targetPath ≠ some path
  ended : left.nextToStart maxConcurrent skip = none
  /-- It ends when there is no room, or when each that waits is held back or in conflict. -/
  stops : left.mayStart maxConcurrent = true → ∀ item ∈ left.items, item.status = .queued →
    skip item.id = true ∨
      ∃ active ∈ left.items, active.id ≠ item.id ∧ active.status.isActive = true ∧ item.conflictsWith active = true
  /-- What was tried runs, unless every link it had lost its secret: then it failed, saying so. -/
  started : ∀ item ∈ left.items, item.id ∈ tried.map (·.2) → ∃ before ∈ q.items, before.id = item.id ∧
    item.status = if before.hasLink isRedacted then .downloading else .failed redactedLink
  /-- The others are as they were. -/
  others : ∀ item, item.id ∉ tried.map (·.2) → (item ∈ left.items ↔ item ∈ q.items)

theorem startAll_in_order (q : DownloadQueue U P) (maxConcurrent : Nat) (skip : Nat → Bool) :
    StartsInOrder isRedacted q maxConcurrent skip (q.startAll isRedacted maxConcurrent skip).1
      (q.startAll isRedacted maxConcurrent skip).2 := by
  have hgreedy := @greedy_starts U P _ _ isRedacted q maxConcurrent skip
  have hfuel : q.order.length ≤ q.items.length := q.order_length.le
  have hfrom := StartedFrom.refl q
  have hsub := hgreedy.rounds_sublist hfrom hfuel
  have hleft := @items_starts U P isRedacted _ (q.order_nodup.sublist hsub) q
  rw [← rounds_foldl] at hleft
  have hnext : ∀ turn ∈ (q.startAll isRedacted maxConcurrent skip).1, turn.1.mayStart maxConcurrent = true ∧
      q.order.find? (turn.1.ready maxConcurrent skip) = some turn.2 ∧
      ∃ item ∈ q.items, item ∈ turn.1.items ∧ item.id = turn.2 ∧ item.status = .queued ∧ skip item.id = false ∧
        ∀ active ∈ turn.1.items, active.status.isActive = true → active.id ≠ item.id →
          (∀ url ∈ item.urls, url ∉ active.urls) ∧
            ∀ path, item.targetPath = some path → active.targetPath ≠ some path := by
    intro turn hturn
    have hinv := hgreedy.rounds_inv hfrom hturn
    have hpick := rounds_picked hturn
    rw [hgreedy.pick_eq hinv] at hpick
    obtain ⟨hroom, item, hitem, hid, hstart⟩ := ready_eq_true.mp (List.find?_some hpick)
    obtain ⟨hwaiting, hskip, hfree⟩ := (startable_eq_true hitem).mp hstart
    exact ⟨hroom, hpick, item, hinv.waited item hitem hwaiting, hitem, hid, eq_of_beq hwaiting, hskip,
      fun active hactive hruns hne => QueueItem.conflictsWith_eq_false.mp (hfree active hactive hne hruns)⟩
  have hnone := hgreedy.rounds_done hfrom hfuel
  refine ⟨hsub, hnext, hnone, ?_, ?_, ?_⟩
  · intro hroom item hitem hqueued
    rw [nextToStart_eq, List.find?_eq_none] at hnone
    have hid : item.id ∈ DownloadQueue.order (q.startAll isRedacted maxConcurrent skip).2 :=
      List.mem_map.mpr ⟨item, mem_byPriority.mpr hitem, rfl⟩
    by_contra! hfree
    refine hnone item.id hid (ready_eq_true.mpr ⟨hroom, item, hitem, rfl, (startable_eq_true hitem).mpr ⟨?_, ?_, ?_⟩⟩)
    · exact beq_iff_eq.mpr hqueued
    · exact Bool.eq_false_iff.mpr hfree.1
    · exact fun active hactive hne hruns => Bool.eq_false_iff.mpr (hfree.2 active hactive hne hruns)
  · intro item hitem htried
    rw [startAll, hleft] at hitem
    obtain ⟨before, hbefore, rfl⟩ := List.mem_map.mp hitem
    have hid : ∀ {c : Prop} [Decidable c], (if c then (before.start isRedacted).2 else before).id = before.id := by
      intro c _
      split <;> simp
    rw [hid] at htried
    refine ⟨before, hbefore, hid.symm, ?_⟩
    obtain ⟨turn, hturn, hsame⟩ := List.mem_map.mp htried
    obtain ⟨-, -, waited, hwaited, -, hwaited_id, hqueued, -⟩ := hnext turn hturn
    have heq : waited = before := eq_of_id hwaited hbefore (hwaited_id.trans hsame)
    rw [if_pos (by exact htried), QueueItem.start_of_waiting (beq_iff_eq.mpr (heq ▸ hqueued))]
  · intro item hnot
    rw [startAll, hleft, List.mem_map]
    constructor
    · rintro ⟨before, hbefore, rfl⟩
      split at hnot
      next htried => exact absurd htried (by rwa [QueueItem.start_id] at hnot)
      next hother => rwa [if_neg hother]
    · intro hitem
      exact ⟨item, hitem, if_neg hnot⟩

end

/-! ## Download next -/

/-- The place of the first that is waiting, counted with an item that is, cuts the
others where it goes. -/
theorem take_findIdx {α : Type} {p : α → Bool} {item : α} (h : p item = true) (before after : List α) :
    (before ++ after).take ((before ++ item :: after).findIdx p) = before.takeWhile fun x => !p x := by
  induction before with
  | nil => simp [List.findIdx_cons, h]
  | cons x before ih =>
    rw [List.cons_append, List.cons_append, List.findIdx_cons]
    cases hx : p x with
    | true => simp [hx]
    | false => simp [hx, ih]

theorem top_le {item : QueueItem U P} (h : item ∈ q.items) (hwaiting : item.waiting = true) :
    q.top ≤ item.priority := by
  have hmem : item.priority ∈ (q.items.filter (·.waiting)).map (·.priority) :=
    List.mem_map.mpr ⟨item, List.mem_filter.mpr ⟨h, hwaiting⟩, rfl⟩
  rw [top]
  cases hmin : ((q.items.filter (·.waiting)).map (·.priority)).min? with
  | none =>
    rw [List.min?_eq_none_iff] at hmin
    simp [hmin] at hmem
  | some least => exact (List.min?_eq_some_iff.mp hmin).2 _ hmem

/-- The item stands before all others that wait, as high as any of them; the others
are as they were. -/
theorem downloadNext_items {id : Nat} {item : QueueItem U P} (h : q.getItem id = some item)
    (hwaiting : item.waiting = true) :
    ∃ before after, (q.downloadNext id).2.items = before ++ { item with priority := q.top } :: after ∧
      (∀ other ∈ before, other.waiting = false) ∧ before ++ after = q.items.filter (·.id != id) := by
  obtain ⟨hmem, rfl⟩ := getItem_eq_some.mp h
  obtain ⟨-, front, back, hsplit, hfront⟩ := List.find?_eq_some_iff_append.mp h
  have hothers : ∀ other ∈ front ++ back, other.id ≠ item.id := by
    have hnodup := q.ids_nodup
    rw [hsplit, List.map_append, List.map_cons, List.nodup_middle, List.nodup_cons, ← List.map_append] at hnodup
    intro other hother heq
    exact hnodup.1 (List.mem_map.mpr ⟨other, hother, heq⟩)
  have herase : q.items.eraseP (·.id == item.id) = front ++ back := by
    rw [hsplit, List.eraseP_append_right, List.eraseP_cons_of_pos (by simp)]
    intro other hother
    simpa using hfront other hother
  have htake : (front ++ back).take (q.items.findIdx (·.waiting)) = front.takeWhile fun other => !other.waiting := by
    rw [hsplit]
    exact take_findIdx hwaiting front back
  refine ⟨(front ++ back).take (q.items.findIdx (·.waiting)), (front ++ back).drop (q.items.findIdx (·.waiting)),
    ?_, ?_, ?_⟩
  · have hsame : ∀ {rest : List (QueueItem U P)}, (∀ other ∈ rest, other ∈ front ++ back) →
        rest.map (fun other => if other.id = item.id then { other with priority := min other.priority q.top } else other) =
          rest := by
      intro rest hrest
      exact (List.map_congr_left fun other hother => if_neg (hothers other (hrest other hother))).trans (List.map_id rest)
    have htop : min item.priority q.top = q.top := min_eq_right (top_le hmem hwaiting)
    simp only [downloadNext, h, Option.any_some, hwaiting, if_true, update, moveItem_items h, moved, herase, List.map_append,
      List.map_cons, htop, hsame fun _ => List.mem_of_mem_take, hsame fun _ => List.mem_of_mem_drop]
  · intro other hother
    rw [htake] at hother
    simpa using List.mem_takeWhile_imp hother
  · rw [List.take_append_drop, hsplit, List.filter_append, List.filter_cons_of_neg (by simp), ← List.filter_append,
      List.filter_eq_self.mpr]
    exact fun other hother => by simpa using hothers other hother

/-- Of what waits, what stands before the others and as high as them starts first. -/
theorem find_first {items before after : List (QueueItem U P)} {item : QueueItem U P} {may : QueueItem U P → Bool}
    (hitems : items = before ++ item :: after) (hmay : may item = true) (hbefore : ∀ other ∈ before, may other = false)
    (htop : ∀ other ∈ after, may other = true → item.priority ≤ other.priority) :
    (byPriority items).find? may = some item := by
  have hself : (items.filter (·.priority == item.priority)).find? may = some item := by
    rw [hitems, List.filter_append, List.find?_append, List.filter_cons_of_pos (by simp),
      List.find?_cons_of_pos hmay, List.find?_eq_none.mpr]
    · rfl
    · intro other hother
      simp [hbefore other (List.mem_of_mem_filter hother)]
  have hhigher : ∀ p, p < item.priority → (items.filter (·.priority == p)).find? may = none := by
    intro p hp
    rw [List.find?_eq_none]
    intro other hother hmay_other
    obtain ⟨hin, heq⟩ := List.mem_filter.mp hother
    have heq : other.priority = p := by simpa using heq
    rw [hitems, List.mem_append, List.mem_cons] at hin
    rcases hin with hin | rfl | hin
    · simp [hbefore other hin] at hmay_other
    · exact absurd heq hp.ne'
    · exact absurd (htop other hin hmay_other) (heq ▸ not_le.mpr hp)
  rw [byPriority, List.find?_flatMap]
  cases hp : item.priority with
  | high =>
    rw [hp] at hself
    simp only [Priority.all, List.findSome?_cons, hself]
  | normal =>
    rw [hp] at hself hhigher
    simp only [Priority.all, List.findSome?_cons, hself, hhigher .high (by decide)]
  | low =>
    rw [hp] at hself hhigher
    simp only [Priority.all, List.findSome?_cons, hself, hhigher .high (by decide), hhigher .normal (by decide)]

section

variable [DecidableEq U] [DecidableEq P]

/-- A queue of one download whose only link was saved without its secret. -/
def lostSecret : DownloadQueue String String where
  items := [{ id := 1, urls := ["https://e.com/f?token=REDACTED"] }]
  nextId := 2
  ids_nodup := by decide
  ids_below := by decide

/-- It waits, is not held back and conflicts with nothing, and there is room; but it
is not started: it fails. -/
theorem lostSecret_fails :
    ((lostSecret.getItem 1).any (·.waiting) = true ∧ lostSecret.activeConflict 1 = none ∧ lostSecret.mayStart 2 = true) ∧
      ((lostSecret.startAll (· == "https://e.com/f?token=REDACTED") 2 fun _ => false).2.items.map (·.status)) =
        [.failed redactedLink] := by
  decide +kernel

/-- What `download_next` has made of a queue. -/
structure GoesNext (q : DownloadQueue U P) (id : Nat) (after : DownloadQueue U P) : Prop where
  starts : ∀ maxConcurrent skip, after.mayStart maxConcurrent = true → skip id = false →
    after.activeConflict id = none → after.nextToStart maxConcurrent skip = some id
  others : after.items.filter (·.id != id) = q.items.filter (·.id != id)
  statuses : ∀ any, (after.getItem any).map (·.status) = (q.getItem any).map (·.status)

theorem downloadNext_goes_next {id : Nat} (h : (q.downloadNext id).1 = true) : GoesNext q id (q.downloadNext id).2 := by
  have hwaits : (q.getItem id).any (·.waiting) = true := by
    unfold downloadNext at h
    split at h
    next hany => exact hany
    next => simp at h
  obtain ⟨item, hfound, hwaiting⟩ := (Option.any_eq_true _ _).mp hwaits
  obtain ⟨hmem, rfl⟩ := getItem_eq_some.mp hfound
  obtain ⟨before, after, hitems, hbefore, hrest⟩ := downloadNext_items hfound hwaiting
  have hrest_ne : ∀ other ∈ before ++ after, other.id ≠ item.id := by
    intro other hother
    rw [hrest] at hother
    simpa using (List.mem_filter.mp hother).2
  have hothers : (q.downloadNext item.id).2.items.filter (·.id != item.id) = q.items.filter (·.id != item.id) := by
    rw [hitems, List.filter_append, List.filter_cons_of_neg (by simp), ← List.filter_append,
      List.filter_eq_self.mpr fun other hother => by simpa using hrest_ne other hother, hrest]
  have hmoved : { item with priority := q.top } ∈ (q.downloadNext item.id).2.items := by
    simp [hitems]
  refine ⟨fun maxConcurrent skip hroom hskip hfree => ?_, hothers, fun any => ?_⟩
  · rw [nextToStart_eq, order, List.find?_map]
    have hready : (byPriority (q.downloadNext item.id).2.items).find?
        ((q.downloadNext item.id).2.ready maxConcurrent skip ∘ (·.id)) = some { item with priority := q.top } := by
      refine find_first hitems ?_ ?_ ?_
      · refine ready_eq_true.mpr ⟨hroom, _, hmoved, rfl, ?_⟩
        rw [startable, Bool.and_eq_true, Bool.and_eq_true]
        exact ⟨⟨hwaiting, by simp [hskip]⟩, by simp [hfree]⟩
      · intro other hother
        have hin : other ∈ (q.downloadNext item.id).2.items := by simp [hitems, hother]
        simp [ready, getItem_of_mem hin, startable, hbefore other hother]
      · intro other hother hmay
        have hin : other ∈ (q.downloadNext item.id).2.items := by simp [hitems, hother]
        obtain ⟨-, same, hsame, hid, hstart⟩ := ready_eq_true.mp hmay
        rw [eq_of_id hsame hin hid] at hstart
        have hq : other ∈ q.items := List.mem_of_mem_filter (hrest ▸ List.mem_append_right before hother)
        exact top_le hq ((startable_eq_true hin).mp hstart).1
    rw [hready]
    rfl
  · by_cases hany : any = item.id
    · rw [hany, hfound, getItem_of_mem hmoved]
      rfl
    · congr 1
      ext other
      rw [getItem_eq_some, getItem_eq_some]
      refine and_congr_left fun hid => ?_
      have hne : (other.id != item.id) = true := by simpa using hid ▸ hany
      have hfilter : ∀ items : List (QueueItem U P), other ∈ items ↔ other ∈ items.filter (·.id != item.id) :=
        fun _ => by simp [List.mem_filter, hne]
      rw [hfilter, hothers, ← hfilter]

/-- Items start in the stable order of priority, and `download_next` puts one next. -/
theorem starts_by_priority (isRedacted : U → Bool) (q : DownloadQueue U P) :
    (∃ sorted, StableOrder q.items sorted ∧ q.order = sorted.map (·.id)) ∧
    (∀ maxConcurrent skip, StartsInOrder isRedacted q maxConcurrent skip
      (q.startAll isRedacted maxConcurrent skip).1 (q.startAll isRedacted maxConcurrent skip).2) ∧
      ∀ id, (q.downloadNext id).1 = true → GoesNext q id (q.downloadNext id).2 :=
  ⟨⟨byPriority q.items, stableOrder_byPriority q.items, rfl⟩, startAll_in_order q, fun _ => downloadNext_goes_next⟩

end

end DownloadQueue

end Hyperfetch.Queue
