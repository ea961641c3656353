import Hyperfetch.Browser.Relay

/-!
# Where a recording has no hole

A slice that is lost where the recording does not notice leaves a hole: one
the bridge cannot encode, a message that does not arrive, one the background
cannot decode. So does a close that the page did not ask for while it goes on
recording, as the next slice then starts a recording of its own. Nothing else
does: `no_hole_when_kept`.

`Sound` is the invariant: what of each document is handled, on its way and
still to be appended makes up what it appended, as long as it is recorded.
-/

namespace Hyperfetch

open Weft

namespace Browser

/-! ## What is on its way -/

inductive Item
  | active (doc : Nat)
  | chunk (doc : Nat) (slice : Slice)
  | end_ (doc : Nat)
  /-- A close the page did not ask for. -/
  | other

def Queued.item (doc : Nat) : Queued → Item
  | .slice x => .chunk doc x
  | .end_ => .end_ doc

def Message.item : Message → Item
  | .active doc => .active doc
  | .chunk doc slice => .chunk doc slice
  | .end_ doc => .end_ doc

def Task.item : Task → Item
  | .chunk doc slice => .chunk doc slice
  | .finish (some doc) => .end_ doc
  | .finish none => .other

namespace Item

/-- A document says that it records, then come its chunks, then their end. -/
def rank : Item → Option Nat
  | .active doc => some (3 * doc)
  | .chunk doc _ => some (3 * doc + 1)
  | .end_ doc => some (3 * doc + 2)
  | .other => none

/-- The slice, if it is one of document `doc`. -/
def sliceOf (doc : Nat) : Item → Option Slice
  | .chunk d slice => if d = doc then some slice else none
  | _ => none

def Before (x y : Item) : Prop := ∀ i j, x.rank = some i → y.rank = some j → i ≤ j

end Item

/-- The slices of document `doc` among `items`. -/
def slicesOf (doc : Nat) (items : List Item) : List Slice := items.filterMap (Item.sliceOf doc)

namespace Relay

/-- All that is on its way to the app, in order. -/
def pipe (s : Relay) : List Item :=
  s.tasks.map Task.item ++ (s.channel.map Message.item ++ s.queue.map (Queued.item s.doc))

/-- The slices of document `doc` that are on their way. -/
def left (s : Relay) (doc : Nat) : List Slice := slicesOf doc s.pipe

/-- Document `doc` may still append. -/
def Writable (s : Relay) (doc : Nat) : Prop := s.doc = doc ∧ s.hidden = false ∧ s.ended = false

/-- A step by which no slice is lost unnoticed: none fails to be encoded, sent
or decoded, or to have its recording saved or its tab's state read; and a
close the page did not ask for comes when its document may not record any
more, or has no slice left. -/
def Kept (s : Relay) : Event → Prop
  | .turn encoded => encoded = true
  | .lose => ∀ doc slice, s.channel.head? ≠ some (.chunk doc slice)
  | .run fate =>
    match s.tasks with
    | .chunk _ _ :: _ =>
      fate.closeSaved = true ∧ fate.tabRead = true ∧ fate.startSaved = true ∧ fate.decoded = true
    | .finish none :: _ =>
      ∀ r, s.rec_ = some r → s.armed = some r.doc → s.left r.doc = [] ∧ ¬ s.Writable r.doc
    | _ => True
  | _ => True

end Relay

/-- The steps by which no slice is lost unnoticed. -/
def keptRelays : TSys Relay where
  init s := s = .start
  step s s' := ∃ e, s.Kept e ∧ s.step e = some s'

/-! ## The invariant -/

namespace Relay

/-- What is handled and what is to come of a document's slices. -/
structure Flows (s : Relay) (doc : Nat) (handled pending : List Slice) : Prop where
  starts : handled ++ pending <+: s.appended doc
  whole : s.Writable doc → handled ++ pending = s.appended doc

/-- The app's recording holds what was handled of its document. -/
def Live (s : Relay) (doc id : Nat) (pending : List Slice) : Prop :=
  id < s.next ∧ (s.app id).doc = doc ∧
    ∃ handled, s.Flows doc handled pending ∧ ∀ track part, (s.app id).files track part = partBytes track part handled

/-- Nothing of the document is added any more: nothing of it is left, it lost
a slice, or it may not record. -/
inductive Over (s : Relay) (doc : Nat) (pending : List Slice) : Prop
  | done (hdoc : doc ≤ s.doc) (hleft : pending = []) (hgone : ¬ s.Writable doc)
  | lost (bytes : Nat) (hrec : s.rec_ = some ⟨doc, none, bytes⟩)
  | refused (hdoc : doc ≤ s.doc) (harmed : s.armed ≠ some doc) (hactive : .active doc ∉ s.pipe)
      (hrec : ∀ r, s.rec_ = some r → r.doc ≠ doc)

inductive Status (s : Relay) (doc : Nat) (pending : List Slice) : Prop
  /-- No slice of it came to the background. -/
  | fresh (h : s.Flows doc [] pending)
  | live (id bytes : Nat) (h : s.rec_ = some ⟨doc, some id, bytes⟩)
  | past (h : s.Over doc pending)

/-- `pending` is what of each document is to come. -/
structure SoundWith (s : Relay) (pending : Nat → List Slice) : Prop where
  sorted : s.pipe.Pairwise Item.Before
  bound : ∀ x ∈ s.pipe, ∀ i, x.rank = some i → i ≤ 3 * s.doc + 2 ∧
    (s.hidden = false → s.ended = false → i ≤ 3 * s.doc + 1)
  isOpen : ∀ slice, .slice slice ∈ s.queue → s.isOpen = true
  later : ∀ doc, s.doc < doc → s.appended doc = []
  current : ∀ r, s.rec_ = some r → r.doc ≤ s.doc ∧ ∀ x ∈ s.pipe, ∀ i, x.rank = some i → 3 * r.doc + 1 ≤ i
  live : ∀ doc id bytes, s.rec_ = some ⟨doc, some id, bytes⟩ → s.Live doc id (pending doc)
  status : ∀ doc, s.Status doc (pending doc)
  whole : ∀ id < s.next, NoHole (s.appended (s.app id).doc) (s.app id)

def Sound (s : Relay) : Prop := s.SoundWith s.left

end Relay

/-! ## Slices and parts -/

theorem slicesOf_append (doc : Nat) (xs ys : List Item) :
    slicesOf doc (xs ++ ys) = slicesOf doc xs ++ slicesOf doc ys := List.filterMap_append

theorem slicesOf_cons (doc : Nat) (x : Item) (xs : List Item) :
    slicesOf doc (x :: xs) = (x.sliceOf doc).toList ++ slicesOf doc xs := by
  unfold slicesOf
  cases h : x.sliceOf doc <;> simp [h]

/-- Behind a later rank no slice of a document comes. -/
theorem slicesOf_eq_nil {doc : Nat} {items : List Item}
    (h : ∀ x ∈ items, ∀ i, x.rank = some i → 3 * doc + 1 < i) : slicesOf doc items = [] := by
  unfold slicesOf
  rw [List.filterMap_eq_nil_iff]
  intro x hx
  cases x with
  | chunk d slice =>
    have hlt := h _ hx _ rfl
    simp only [Item.sliceOf, ite_eq_right_iff, reduceCtorEq, imp_false]
    omega
  | active d => rfl
  | end_ d => rfl
  | other => rfl

theorem partBytes_append (track part : Nat) (xs ys : List Slice) :
    partBytes track part (xs ++ ys) = partBytes track part xs ++ partBytes track part ys := by
  simp only [partBytes, List.filter_append, List.flatMap_append]

theorem partBytes_singleton (track part : Nat) (slice : Slice) :
    partBytes track part [slice] = if slice.track = track ∧ slice.part = part then slice.data else [] := by
  by_cases h : slice.track = track ∧ slice.part = part <;> simp [partBytes, h]

theorem partBytes_mono {xs ys : List Slice} (h : xs <+: ys) (track part : Nat) :
    partBytes track part xs <+: partBytes track part ys := by
  obtain ⟨zs, rfl⟩ := h
  rw [partBytes_append]
  exact List.prefix_append _ _

theorem partBytes_nil (track part : Nat) : partBytes track part [] = [] := rfl

/-! ## No hole -/

theorem NoHole.mono {xs ys : List Slice} {r : AppRecording} (h : NoHole xs r) (hle : xs <+: ys) : NoHole ys r := by
  obtain ⟨m, hm, hparts⟩ := h
  refine ⟨m, hm.trans hle.length_le, fun track part => ?_⟩
  have hsame : ys.take m = xs.take m := by
    obtain ⟨zs, rfl⟩ := hle
    exact List.take_append_of_le_length hm
  have hnext : xs.take (m + 1) <+: ys.take (m + 1) := hle.take (m + 1)
  exact ⟨hsame ▸ (hparts track part).1, (hparts track part).2.trans (partBytes_mono hnext track part)⟩

/-- A recording that was deleted has no hole. -/
theorem noHole_empty (xs : List Slice) {r : AppRecording} (h : ∀ track part, r.files track part = []) :
    NoHole xs r :=
  ⟨0, Nat.zero_le _, fun track part => by
    rw [h, List.take_zero, partBytes_nil]
    exact ⟨List.prefix_rfl, List.nil_prefix⟩⟩

theorem noHole_congr {xs : List Slice} {r r' : AppRecording} (h : NoHole xs r) (hfiles : r'.files = r.files) :
    NoHole xs r' := by
  unfold NoHole at h ⊢
  rwa [hfiles]

/-- The files hold the slices handled, and `n` bytes of the next one. -/
theorem noHole_of_handled {appended handled rest : List Slice} {slice : Slice} {r : AppRecording}
    (happended : handled ++ slice :: rest <+: appended) {n : Nat}
    (hfiles : ∀ track part, r.files track part = partBytes track part handled ++
      if slice.track = track ∧ slice.part = part then slice.data.take n else []) : NoHole appended r := by
  obtain ⟨zs, rfl⟩ := happended
  have htake : (handled ++ slice :: rest ++ zs).take handled.length = handled := by simp
  have hnext : (handled ++ slice :: rest ++ zs).take (handled.length + 1) = handled ++ [slice] := by
    rw [show handled ++ slice :: rest ++ zs = (handled ++ [slice]) ++ (rest ++ zs) by simp,
      show handled.length + 1 = (handled ++ [slice]).length by simp, List.take_left']
    rfl
  refine ⟨handled.length, by simp, fun track part => ?_⟩
  rw [htake, hnext, hfiles, partBytes_append, partBytes_singleton]
  refine ⟨List.prefix_append _ _, (List.prefix_append_right_inj _).mpr ?_⟩
  split
  · exact List.take_prefix _ _
  · exact List.prefix_rfl

/-! ## The app -/

theorem files_append (r : AppRecording) (slice : Slice) (disk : Option Nat) :
    (r.append slice disk).1.doc = r.doc ∧
      ((r.append slice disk).2 = true → ∀ track part, (r.append slice disk).1.files track part =
        r.files track part ++ if slice.track = track ∧ slice.part = part then slice.data else []) ∧
      ∃ n, ∀ track part, (r.append slice disk).1.files track part =
        r.files track part ++ if slice.track = track ∧ slice.part = part then slice.data.take n else [] := by
  have hnothing : ∀ track part, r.files track part =
      r.files track part ++ if slice.track = track ∧ slice.part = part then slice.data.take 0 else [] := by
    intro track part
    rw [List.take_zero, ite_self, List.append_nil]
  have hwrite : ∀ (data : List UInt8) track part, (r.write slice.track slice.part data).files track part =
      r.files track part ++ if slice.track = track ∧ slice.part = part then data else [] := by
    intro data track part
    simp only [AppRecording.write, eq_comm (a := track), eq_comm (a := part)]
    split
    · rfl
    · rw [List.append_nil]
  unfold AppRecording.append
  split
  · exact ⟨rfl, (fun h => by cases h), 0, hnothing⟩
  · split
    · exact ⟨rfl, (fun h => by cases h), 0, hnothing⟩
    · cases disk with
      | none =>
        refine ⟨rfl, fun _ => hwrite slice.data, slice.data.length, fun track part => ?_⟩
        rw [List.take_length]
        exact hwrite slice.data track part
      | some n => exact ⟨rfl, (fun h => by cases h), n, hwrite _⟩

theorem doc_finish (r : AppRecording) : r.finish.doc = r.doc := by
  unfold AppRecording.finish AppRecording.abort
  split <;> rfl

/-- Finishing keeps the files, or deletes them. -/
theorem noHole_finish {xs : List Slice} {r : AppRecording} (h : NoHole xs r) : NoHole xs r.finish := by
  unfold AppRecording.finish
  split
  · exact noHole_empty xs fun _ _ => rfl
  · exact noHole_congr h rfl

theorem noHole_abort (xs : List Slice) (r : AppRecording) : NoHole xs r.abort := noHole_empty xs fun _ _ => rfl

/-! ## Steps of the page and of the messages -/

namespace Relay

/-- What the background and the app hold is the same. -/
structure Same (s s' : Relay) : Prop where
  rec_ : s'.rec_ = s.rec_
  app : s'.app = s.app
  next : s'.next = s.next

/-- A step that keeps what the background and the app hold keeps each
document's status, if its slices still flow. -/
theorem Status.same {s s' : Relay} {doc : Nat} {pending pending' : List Slice} (h : s.Status doc pending)
    (hsame : Same s s') (hdoc : s.doc ≤ s'.doc)
    (hflows : s.Flows doc [] pending → s'.Flows doc [] pending')
    (hdone : doc ≤ s.doc → pending = [] → ¬ s.Writable doc → pending' = [] ∧ ¬ s'.Writable doc)
    (harmed : s'.armed = some doc → s.armed = some doc ∨ .active doc ∈ s.pipe)
    (hactive : doc ≤ s.doc → .active doc ∈ s'.pipe → .active doc ∈ s.pipe) : s'.Status doc pending' := by
  cases h with
  | fresh h => exact .fresh (hflows h)
  | live id bytes h => exact .live id bytes (hsame.rec_.trans h)
  | past h =>
    refine .past ?_
    cases h with
    | done hle hleft hgone => exact .done (hle.trans hdoc) (hdone hle hleft hgone).1 (hdone hle hleft hgone).2
    | lost bytes hrec => exact .lost bytes (hsame.rec_.trans hrec)
    | refused hle hnot hnone hrec =>
      refine .refused (hle.trans hdoc) (fun h => ?_) (fun h => hnone (hactive hle h)) fun r hr => ?_
      · exact (harmed h).elim hnot hnone
      · exact hrec r (hsame.rec_ ▸ hr)

theorem Live.same {s s' : Relay} {doc id : Nat} {pending pending' : List Slice} (h : s.Live doc id pending)
    (hsame : Same s s') (hflows : ∀ handled, s.Flows doc handled pending → s'.Flows doc handled pending') :
    s'.Live doc id pending' := by
  obtain ⟨hid, hdoc, handled, hflow, hfiles⟩ := h
  unfold Live
  rw [hsame.app, hsame.next]
  exact ⟨hid, hdoc, handled, hflows handled hflow, hfiles⟩

/-- What a step of the page or of a message is to show. -/
structure Moves (s s' : Relay) : Prop where
  same : Same s s'
  doc : s.doc ≤ s'.doc
  sorted : s'.pipe.Pairwise Item.Before
  bound : ∀ x ∈ s'.pipe, ∀ i, x.rank = some i → i ≤ 3 * s'.doc + 2 ∧
    (s'.hidden = false → s'.ended = false → i ≤ 3 * s'.doc + 1)
  isOpen : ∀ slice, .slice slice ∈ s'.queue → s'.isOpen = true
  appended : ∀ doc, s.appended doc <+: s'.appended doc
  later : ∀ doc, s'.doc < doc → s'.appended doc = []
  /-- What is new comes of the document in the frame. -/
  new : ∀ x ∈ s'.pipe, x ∈ s.pipe ∨ x.rank = none ∨ ∃ i, x.rank = some i ∧ 3 * s.doc + 1 ≤ i
  armed : ∀ doc, s'.armed = some doc → s.armed = some doc ∨ .active doc ∈ s.pipe
  flows : ∀ doc handled, s.Flows doc handled (s.left doc) → s'.Flows doc handled (s'.left doc)
  done : ∀ doc, doc ≤ s.doc → s.left doc = [] → ¬ s.Writable doc → s'.left doc = [] ∧ ¬ s'.Writable doc

theorem Sound.moves {s s' : Relay} (h : s.Sound) (hmoves : Moves s s') : s'.Sound where
  sorted := hmoves.sorted
  bound := hmoves.bound
  isOpen := hmoves.isOpen
  later := hmoves.later
  current := by
    intro r hr
    obtain ⟨hle, hall⟩ := h.current r (hmoves.same.rec_ ▸ hr)
    refine ⟨hle.trans hmoves.doc, fun x hx i hi => ?_⟩
    rcases hmoves.new x hx with hx | hx | ⟨j, hj, hjle⟩
    · exact hall x hx i hi
    · rw [hx] at hi
      cases hi
    · rw [hi] at hj
      cases hj
      omega
  live := fun doc id bytes hr =>
    (h.live doc id bytes (hmoves.same.rec_ ▸ hr)).same hmoves.same (hmoves.flows doc)
  status := fun doc => (h.status doc).same hmoves.same hmoves.doc (hmoves.flows doc []) (hmoves.done doc)
    (hmoves.armed doc) fun hle hactive => by
      rcases hmoves.new _ hactive with hx | hx | ⟨j, hj, hjle⟩
      · exact hx
      · cases hx
      · cases hj
        omega
  whole := by
    intro id hid
    rw [hmoves.same.next] at hid
    rw [hmoves.same.app]
    exact (h.whole id hid).mono (hmoves.appended _)

/-- A step by which no slice moves out of order, nor out. -/
theorem Sound.thins {s s' : Relay} (h : s.Sound) (hsame : Same s s') (hdoc : s'.doc = s.doc)
    (hhidden : s'.hidden = s.hidden) (hended : s'.ended = s.ended) (happended : s'.appended = s.appended)
    (hpipe : s'.pipe.Sublist s.pipe) (hleft : ∀ doc, s'.left doc = s.left doc)
    (hopen : ∀ slice, .slice slice ∈ s'.queue → s'.isOpen = true)
    (harmed : ∀ doc, s'.armed = some doc → s.armed = some doc ∨ .active doc ∈ s.pipe) : s'.Sound := by
  have hwritable : ∀ doc, s'.Writable doc ↔ s.Writable doc := fun doc => by
    simp only [Writable, hdoc, hhidden, hended]
  exact h.moves
    { same := hsame
      doc := hdoc ▸ le_rfl
      sorted := h.sorted.sublist hpipe
      bound := fun x hx => by
        rw [hdoc, hhidden, hended]
        exact h.bound x (hpipe.subset hx)
      isOpen := hopen
      appended := fun doc => happended ▸ List.prefix_rfl
      later := fun doc hlt => by rw [happended]; exact h.later doc (hdoc ▸ hlt)
      new := fun x hx => .inl (hpipe.subset hx)
      armed := harmed
      flows := fun doc handled hflow => by
        refine ⟨?_, fun hw => ?_⟩
        · rw [hleft, happended]
          exact hflow.starts
        · rw [hleft, happended]
          exact hflow.whole ((hwritable doc).mp hw)
      done := fun doc _ hnil hgone => ⟨(hleft doc).trans hnil, fun hw => hgone ((hwritable doc).mp hw)⟩ }

/-- The queue's slices are all of the document in the frame. -/
theorem slicesOf_queue (s : Relay) (xs : List Slice) (doc : Nat) :
    slicesOf doc ((xs.map Queued.slice).map (Queued.item s.doc)) = if s.doc = doc then xs else [] := by
  induction xs with
  | nil => simp [slicesOf]
  | cons x xs ih =>
    rw [List.map_cons, List.map_cons, slicesOf_cons, ih]
    by_cases hdoc : s.doc = doc <;> simp [Queued.item, Item.sliceOf, hdoc]

theorem Sound.appends {s s' : Relay} (h : s.Sound) {track part : Nat} {buf : List UInt8}
    (hstep : s.step (.append track part buf) = some s') : s'.Sound := by
  rw [Relay.step] at hstep
  split at hstep
  · rename_i hwrite
    cases hstep
    simp only [Bool.and_eq_true, Bool.not_eq_true'] at hwrite
    obtain ⟨⟨hhidden, hended⟩, -⟩ := hwrite
    generalize hxs : slices track part buf = xs
    generalize hs' : ({ s with
      appended := Function.update s.appended s.doc (s.appended s.doc ++ xs)
      queue := s.queue ++ xs.map .slice
      isOpen := true } : Relay) = s'
    have hpipe : s'.pipe = s.pipe ++ (xs.map Queued.slice).map (Queued.item s.doc) := by
      rw [← hs']
      simp only [Relay.pipe, List.map_append, List.append_assoc]
    have hleft : ∀ doc, s'.left doc = s.left doc ++ if s.doc = doc then xs else [] := fun doc => by
      rw [Relay.left, hpipe, slicesOf_append, slicesOf_queue]
      rfl
    have hrank : ∀ x ∈ (xs.map Queued.slice).map (Queued.item s.doc), x.rank = some (3 * s.doc + 1) := by
      intro x hx
      simp only [List.map_map, List.mem_map, Function.comp] at hx
      obtain ⟨y, _, rfl⟩ := hx
      rfl
    have happended : ∀ doc, s'.appended doc = s.appended doc ++ if s.doc = doc then xs else [] := fun doc => by
      rw [← hs']
      show Function.update s.appended s.doc _ doc = _
      by_cases hdoc : s.doc = doc
      · rw [← hdoc, Function.update_self, if_pos rfl]
      · rw [Function.update_of_ne (Ne.symm hdoc), if_neg hdoc, List.append_nil]
    have hwritable : ∀ doc, s'.Writable doc ↔ s.Writable doc := fun doc => by rw [← hs']; rfl
    refine h.moves
      { same := by rw [← hs']; exact ⟨rfl, rfl, rfl⟩
        doc := by rw [← hs']
        sorted := ?_
        bound := ?_
        isOpen := by rw [← hs']; exact fun _ _ => rfl
        appended := fun doc => happended doc ▸ List.prefix_append _ _
        later := ?_
        new := ?_
        armed := by rw [← hs']; exact fun doc hdoc => .inl hdoc
        flows := ?_
        done := ?_ }
    · rw [hpipe, List.pairwise_append]
      refine ⟨h.sorted, ?_, fun x hx y hy i j hi hj => ?_⟩
      · refine List.pairwise_of_forall_mem_list fun x hx y hy i j hi hj => ?_
        rw [hrank x hx] at hi
        rw [hrank y hy] at hj
        cases hi
        cases hj
        exact le_rfl
      · rw [hrank y hy] at hj
        cases hj
        exact (h.bound x hx i hi).2 hhidden hended
    · intro x hx i hi
      rw [← hs']
      rw [hpipe] at hx
      rcases List.mem_append.mp hx with hx | hx
      · exact h.bound x hx i hi
      · rw [hrank x hx] at hi
        cases hi
        exact ⟨Nat.le_succ _, fun _ _ => le_rfl⟩
    · intro doc hlt
      have hlt' : s.doc < doc := by rw [← hs'] at hlt; exact hlt
      rw [happended, h.later doc hlt', if_neg (Nat.ne_of_lt hlt'), List.append_nil]
    · intro x hx
      rw [hpipe] at hx
      rcases List.mem_append.mp hx with hx | hx
      · exact .inl hx
      · exact .inr (.inr ⟨_, hrank x hx, le_rfl⟩)
    · intro doc handled hflow
      rw [hleft]
      by_cases hdoc : s.doc = doc
      · have hall : handled ++ s.left doc = s.appended doc := hflow.whole ⟨hdoc, hhidden, hended⟩
        have hall' : handled ++ (s.left doc ++ if s.doc = doc then xs else []) = s'.appended doc := by
          rw [happended, ← List.append_assoc, hall]
        exact ⟨hall' ▸ List.prefix_rfl, fun _ => hall'⟩
      · rw [if_neg hdoc, List.append_nil]
        refine ⟨?_, fun hw => absurd ((hwritable doc).mp hw).1 hdoc⟩
        rw [happended, if_neg hdoc, List.append_nil]
        exact hflow.starts
    · intro doc _ hnil hgone
      refine ⟨?_, fun hw => hgone ((hwritable doc).mp hw)⟩
      -- the document in the frame is not gone
      have hdoc : s.doc ≠ doc := fun hdoc => hgone ⟨hdoc, hhidden, hended⟩
      rw [hleft, hnil, if_neg hdoc]
      rfl
  · cases hstep

/-- What was sent, with at most the document's last word behind it, while the
queue is given up. -/
theorem Sound.cuts {s s' : Relay} (h : s.Sound) (hsame : Same s s') (hdoc : s.doc ≤ s'.doc) (last : List Item)
    (hpipe : s'.pipe = (s.tasks.map Task.item ++ s.channel.map Message.item) ++ last)
    (hlast : ∀ x ∈ last, last = [x] ∧ (∀ doc, x.sliceOf doc = none) ∧ ∃ i, x.rank = some i ∧ 3 * s.doc + 2 ≤ i ∧
      i ≤ 3 * s'.doc + 2 ∧ (s'.hidden = false → s'.ended = false → i ≤ 3 * s'.doc + 1))
    (hgone : s.doc < s'.doc ∨ s'.hidden = true) (hqueue : s'.queue = [])
    (happended : s'.appended = s.appended)
    (harmed : s'.armed = s.armed) : s'.Sound := by
  have hstarts : s.tasks.map Task.item ++ s.channel.map Message.item <+: s.pipe := by
    rw [Relay.pipe, ← List.append_assoc]
    exact List.prefix_append _ _
  have hlastslices : ∀ doc, slicesOf doc last = [] := by
    intro doc
    unfold slicesOf
    rw [List.filterMap_eq_nil_iff]
    exact fun x hx => (hlast x hx).2.1 doc
  have hleft : ∀ doc, s'.left doc <+: s.left doc := by
    intro doc
    unfold Relay.left
    rw [hpipe, slicesOf_append, hlastslices, List.append_nil]
    exact hstarts.filterMap _
  have hbound : ∀ x ∈ s.pipe, ∀ i, x.rank = some i → i ≤ 3 * s.doc + 2 := fun x hx i hi => (h.bound x hx i hi).1
  have hwritable : ∀ doc, s'.Writable doc → s.doc < doc := by
    rintro doc ⟨rfl, hshown, _⟩
    rcases hgone with hlt | hhidden
    · exact hlt
    · rw [hhidden] at hshown
      cases hshown
  refine h.moves
    { same := hsame
      doc := hdoc
      sorted := ?_
      bound := ?_
      isOpen := fun slice hslice => by rw [hqueue] at hslice; cases hslice
      appended := fun doc => happended ▸ List.prefix_rfl
      later := fun doc hlt => by rw [happended]; exact h.later doc (Nat.lt_of_le_of_lt hdoc hlt)
      new := ?_
      armed := fun doc hd => .inl (harmed ▸ hd)
      flows := ?_
      done := ?_ }
  · rw [hpipe, List.pairwise_append]
    refine ⟨h.sorted.sublist hstarts.sublist, ?_, fun x hx y hy i j hi hj => ?_⟩
    · refine List.pairwise_of_forall_mem_list fun x hx y hy i j hi hj => ?_
      have heq : [x] = [y] := (hlast x hx).1.symm.trans (hlast y hy).1
      cases heq
      rw [hi] at hj
      cases hj
      exact le_rfl
    · obtain ⟨-, -, k, hk, hle, -⟩ := hlast y hy
      rw [hj] at hk
      cases hk
      exact (hbound x (hstarts.subset hx) i hi).trans hle
  · intro x hx i hi
    rw [hpipe] at hx
    rcases List.mem_append.mp hx with hx | hx
    · have hle := hbound x (hstarts.subset hx) i hi
      refine ⟨by omega, fun hshown _ => ?_⟩
      rcases hgone with hlt | hhidden
      · omega
      · rw [hhidden] at hshown
        cases hshown
    · obtain ⟨-, -, k, hk, -, hle⟩ := hlast x hx
      rw [hi] at hk
      cases hk
      exact hle
  · intro x hx
    rw [hpipe] at hx
    rcases List.mem_append.mp hx with hx | hx
    · exact .inl (hstarts.subset hx)
    · obtain ⟨-, -, k, hk, hle, -⟩ := hlast x hx
      exact .inr (.inr ⟨k, hk, by omega⟩)
  · intro doc handled hflow
    have hstarts : handled ++ s'.left doc <+: s.appended doc :=
      ((List.prefix_append_right_inj handled).mpr (hleft doc)).trans hflow.starts
    refine ⟨happended ▸ hstarts, fun hw => ?_⟩
    -- the next document appended nothing yet
    have hnil := h.later doc (hwritable doc hw)
    rw [hnil] at hstarts
    rw [happended, hnil]
    exact List.prefix_nil.mp hstarts
  · intro doc hle hnil _
    exact ⟨List.prefix_nil.mp (hnil ▸ hleft doc), fun hw => absurd (hwritable doc hw) (Nat.not_lt.mpr hle)⟩

theorem Sound.pagehides {s s' : Relay} (h : s.Sound) (hstep : s.step .pagehide = some s') : s'.Sound := by
  rw [Relay.step] at hstep
  split at hstep
  · cases hstep
    refine h.cuts ⟨rfl, rfl, rfl⟩ le_rfl (if s.isOpen then [.end_ s.doc] else []) ?_ ?_ (.inr rfl) rfl rfl rfl
    · simp only [Relay.pipe, List.map_nil, List.append_nil]
      split <;> simp [Message.item]
    · intro x hx
      split at hx
      · rename_i hopen
        cases List.mem_singleton.mp hx
        exact ⟨if_pos hopen, fun _ => rfl, _, rfl, le_rfl, le_rfl, fun hshown => by cases hshown⟩
      · cases hx
  · cases hstep

theorem Sound.loads {s s' : Relay} (h : s.Sound) {capturing : Bool} (hstep : s.step (.load capturing) = some s') :
    s'.Sound := by
  rw [Relay.step] at hstep
  cases hstep
  refine h.cuts ⟨rfl, rfl, rfl⟩ (Nat.le_succ _) (if capturing then [.active (s.doc + 1)] else []) ?_ ?_
    (.inl (Nat.lt_succ_self _)) rfl rfl rfl
  · simp only [Relay.pipe, List.map_nil, List.append_nil]
    split <;> simp [Message.item]
  · intro x hx
    split at hx
    · rename_i hcapturing
      cases List.mem_singleton.mp hx
      exact ⟨if_pos hcapturing, fun _ => rfl, 3 * (s.doc + 1), rfl, by omega, by dsimp only; omega,
        fun _ _ => by dsimp only; omega⟩
    · cases hx

theorem Sound.ends {s s' : Relay} (h : s.Sound) (hstep : s.step .endStream = some s') : s'.Sound := by
  rw [Relay.step] at hstep
  split at hstep
  · cases hstep
    generalize hs' : ({ s with
      ended := true
      queue := if (s.appended s.doc).isEmpty then s.queue else s.queue ++ [.end_] } : Relay) = s'
    obtain ⟨last, hpipe, hlast⟩ : ∃ last, s'.pipe = s.pipe ++ last ∧ (last = [] ∨ last = [.end_ s.doc]) := by
      rw [← hs']
      by_cases hempty : (s.appended s.doc).isEmpty
      · exact ⟨[], by simp [Relay.pipe, hempty], .inl rfl⟩
      · exact ⟨[.end_ s.doc], by simp [Relay.pipe, hempty, Queued.item], .inr rfl⟩
    have hmem : ∀ x ∈ last, x = .end_ s.doc := by
      intro x hx
      rcases hlast with rfl | rfl
      · cases hx
      · exact List.mem_singleton.mp hx
    have hleft : ∀ doc, s'.left doc = s.left doc := by
      intro doc
      unfold Relay.left
      rw [hpipe, slicesOf_append]
      rcases hlast with rfl | rfl
      · exact List.append_nil _
      · exact List.append_nil _
    have hgone : ∀ doc, ¬ s'.Writable doc := by
      rintro doc ⟨_, _, hended⟩
      rw [← hs'] at hended
      cases hended
    have hdoc : s'.doc = s.doc := by rw [← hs']
    refine h.moves
      { same := by rw [← hs']; exact ⟨rfl, rfl, rfl⟩
        doc := hdoc ▸ le_rfl
        sorted := ?_
        bound := ?_
        isOpen := ?_
        appended := fun doc => by rw [← hs']
        later := fun doc hlt => by rw [← hs']; exact h.later doc (hdoc ▸ hlt)
        new := ?_
        armed := by rw [← hs']; exact fun doc hd => .inl hd
        flows := fun doc handled hflow => ⟨by rw [hleft, ← hs']; exact hflow.starts, fun hw => absurd hw (hgone doc)⟩
        done := fun doc _ hnil _ => ⟨(hleft doc).trans hnil, hgone doc⟩ }
    · rw [hpipe, List.pairwise_append]
      refine ⟨h.sorted, ?_, fun x hx y hy i j hi hj => ?_⟩
      · rcases hlast with rfl | rfl
        · exact List.Pairwise.nil
        · exact List.pairwise_singleton _ _
      · rw [hmem y hy] at hj
        cases hj
        exact (h.bound x hx i hi).1
    · intro x hx i hi
      rw [hpipe] at hx
      have hended : s'.ended = true := by rw [← hs']
      refine ⟨?_, fun _ hopen => by rw [hended] at hopen; cases hopen⟩
      rw [hdoc]
      rcases List.mem_append.mp hx with hx | hx
      · exact (h.bound x hx i hi).1
      · rw [hmem x hx] at hi
        cases hi
        exact le_rfl
    · intro slice hslice
      rw [← hs'] at hslice ⊢
      refine h.isOpen slice ?_
      dsimp only at hslice
      split at hslice
      · exact hslice
      · simpa using hslice
    · intro x hx
      rw [hpipe] at hx
      rcases List.mem_append.mp hx with hx | hx
      · exact .inl hx
      · rw [hmem x hx]
        exact .inr (.inr ⟨_, rfl, by omega⟩)
  · cases hstep

theorem Sound.turns {s s' : Relay} (h : s.Sound) (hstep : s.step (.turn true) = some s') : s'.Sound := by
  rw [Relay.step] at hstep
  split at hstep
  · rename_i slice rest hqueue
    cases hstep
    have hopen : s.isOpen = true := h.isOpen slice (hqueue ▸ List.mem_cons_self)
    -- the chunk moves from the queue to the messages
    have hsent : Relay.pipe { s with
        queue := rest
        channel := if (true && s.isOpen) = true then s.channel ++ [.chunk s.doc slice] else s.channel } = s.pipe := by
      simp [Relay.pipe, hqueue, hopen, Message.item, Queued.item]
    refine h.thins ⟨rfl, rfl, rfl⟩ rfl rfl rfl rfl (hsent ▸ List.Sublist.refl _) (fun doc => ?_) (fun y hy => ?_)
      fun doc hd => .inl hd
    · unfold Relay.left
      rw [hsent]
    · exact h.isOpen y (hqueue ▸ List.mem_cons_of_mem _ hy)
  · rename_i rest hqueue
    cases hstep
    have hsplit : s.pipe = s.tasks.map Task.item ++ (s.channel.map Message.item ++
        (.end_ s.doc :: rest.map (Queued.item s.doc))) := by
      simp [Relay.pipe, hqueue, Queued.item]
    have hpipe : Relay.pipe { s with
        queue := rest
        isOpen := false
        channel := if s.isOpen then s.channel ++ [.end_ s.doc] else s.channel } =
        s.tasks.map Task.item ++ (s.channel.map Message.item ++
          ((if s.isOpen then [.end_ s.doc] else []) ++ rest.map (Queued.item s.doc))) := by
      cases hopen : s.isOpen <;> simp [Relay.pipe, Message.item]
    refine h.thins ⟨rfl, rfl, rfl⟩ rfl rfl rfl rfl ?_ (fun doc => ?_) (fun y hy => ?_) fun doc hd => .inl hd
    · rw [hpipe, hsplit]
      refine (List.Sublist.refl _).append ((List.Sublist.refl _).append ?_)
      cases s.isOpen with
      | true => exact List.Sublist.refl _
      | false => exact List.sublist_cons_self _ _
    · unfold Relay.left
      rw [hpipe, hsplit]
      simp only [slicesOf_append, slicesOf_cons]
      cases s.isOpen <;> simp [Item.sliceOf, slicesOf]
    · -- no slice comes behind the end of its document
      have hafter := (List.pairwise_append.mp (hsplit ▸ h.sorted)).2.1
      have hends := List.rel_of_pairwise_cons (List.pairwise_append.mp hafter).2.1
        (List.mem_map_of_mem hy) (3 * s.doc + 2) (3 * s.doc + 1) rfl rfl
      omega
  · cases hstep

theorem Sound.arrives {s s' : Relay} (h : s.Sound) {armed : Bool} (hstep : s.step (.arrive armed) = some s') :
    s'.Sound := by
  rw [Relay.step] at hstep
  split at hstep
  · rename_i doc rest hchannel
    cases hstep
    have hsplit : s.pipe = s.tasks.map Task.item ++ (.active doc :: (rest.map Message.item ++
        s.queue.map (Queued.item s.doc))) := by
      simp [Relay.pipe, hchannel, Message.item]
    have hsub : (s.tasks.map Task.item ++ (rest.map Message.item ++ s.queue.map (Queued.item s.doc))).Sublist s.pipe := by
      rw [hsplit]
      exact (List.Sublist.refl _).append (List.sublist_cons_self _ _)
    refine h.thins ⟨rfl, rfl, rfl⟩ rfl rfl rfl rfl hsub (fun d => ?_) h.isOpen fun d hd => ?_
    · unfold Relay.left
      rw [hsplit]
      simp only [Relay.pipe, slicesOf_append, slicesOf_cons]
      rfl
    · dsimp only at hd
      split at hd
      · cases hd
        right
        rw [hsplit]
        exact List.mem_append_right _ List.mem_cons_self
      · exact .inl hd
  · rename_i doc slice rest hchannel
    cases hstep
    have hpipe : Relay.pipe { s with channel := rest, tasks := s.tasks ++ [.chunk doc slice] } = s.pipe := by
      simp [Relay.pipe, hchannel, Message.item, Task.item]
    exact h.thins ⟨rfl, rfl, rfl⟩ rfl rfl rfl rfl (hpipe ▸ List.Sublist.refl _)
      (fun d => by unfold Relay.left; rw [hpipe]) h.isOpen fun d hd => .inl hd
  · rename_i doc rest hchannel
    cases hstep
    have hpipe : Relay.pipe { s with channel := rest, tasks := s.tasks ++ [.finish (some doc)] } = s.pipe := by
      simp [Relay.pipe, hchannel, Message.item, Task.item]
    exact h.thins ⟨rfl, rfl, rfl⟩ rfl rfl rfl rfl (hpipe ▸ List.Sublist.refl _)
      (fun d => by unfold Relay.left; rw [hpipe]) h.isOpen fun d hd => .inl hd
  · cases hstep

theorem Sound.loses {s s' : Relay} (h : s.Sound) (hkept : s.Kept .lose) (hstep : s.step .lose = some s') :
    s'.Sound := by
  rw [Relay.step] at hstep
  split at hstep
  · rename_i message rest hchannel
    cases hstep
    have hsplit : s.pipe = s.tasks.map Task.item ++ (message.item :: (rest.map Message.item ++
        s.queue.map (Queued.item s.doc))) := by
      simp [Relay.pipe, hchannel]
    have hsub : (s.tasks.map Task.item ++ (rest.map Message.item ++ s.queue.map (Queued.item s.doc))).Sublist s.pipe := by
      rw [hsplit]
      exact (List.Sublist.refl _).append (List.sublist_cons_self _ _)
    have hnone : ∀ doc, message.item.sliceOf doc = none := by
      intro doc
      cases message with
      | active d => rfl
      | end_ d => rfl
      | chunk d slice => exact absurd (by rw [hchannel]; rfl) (hkept d slice)
    refine h.thins ⟨rfl, rfl, rfl⟩ rfl rfl rfl rfl hsub (fun d => ?_) h.isOpen fun d hd => .inl hd
    unfold Relay.left
    rw [hsplit]
    simp only [Relay.pipe, slicesOf_append, slicesOf_cons, hnone]
    rfl
  · cases hstep

theorem Sound.disarms {s s' : Relay} (h : s.Sound) (hstep : s.step .disarm = some s') : s'.Sound := by
  cases hstep
  exact h.thins ⟨rfl, rfl, rfl⟩ rfl rfl rfl rfl (List.Sublist.refl _) (fun _ => rfl) h.isOpen
    fun d hd => by cases hd

theorem Sound.asks {s s' : Relay} (h : s.Sound) (hstep : s.step .askFinish = some s') : s'.Sound := by
  cases hstep
  generalize hs' : ({ s with tasks := s.tasks ++ [.finish none] } : Relay) = s'
  obtain ⟨xs, ys, hsplit, hpipe⟩ : ∃ xs ys, s.pipe = xs ++ ys ∧ s'.pipe = xs ++ .other :: ys :=
    ⟨s.tasks.map Task.item, _, rfl, by rw [← hs']; simp [Relay.pipe, Task.item]⟩
  have hmem : ∀ x ∈ s'.pipe, x ∈ s.pipe ∨ x = .other := by
    intro x hx
    rw [hpipe] at hx
    rw [hsplit]
    simp only [List.mem_append, List.mem_cons] at hx ⊢
    rcases hx with hx | hx | hx
    · exact .inl (.inl hx)
    · exact .inr hx
    · exact .inl (.inr hx)
  have hleft : ∀ doc, s'.left doc = s.left doc := by
    intro doc
    unfold Relay.left
    rw [hpipe, hsplit, slicesOf_append, slicesOf_append, slicesOf_cons]
    rfl
  have hwritable : ∀ doc, s'.Writable doc ↔ s.Writable doc := fun doc => by rw [← hs']; rfl
  have hsorted := List.pairwise_append.mp (hsplit ▸ h.sorted)
  exact h.moves
    { same := by rw [← hs']; exact ⟨rfl, rfl, rfl⟩
      doc := by rw [← hs']
      sorted := by
        rw [hpipe, List.pairwise_append, List.pairwise_cons]
        refine ⟨hsorted.1, ⟨fun y _ i j hi => (by cases hi), hsorted.2.1⟩, fun x hx y hy => ?_⟩
        rcases List.mem_cons.mp hy with rfl | hy
        · intro i j _ hj
          cases hj
        · exact hsorted.2.2 x hx y hy
      bound := by
        intro x hx i hi
        rw [← hs']
        rcases hmem x hx with hx | rfl
        · exact h.bound x hx i hi
        · cases hi
      isOpen := by rw [← hs']; exact h.isOpen
      appended := fun doc => by rw [← hs']
      later := by rw [← hs']; exact h.later
      new := fun x hx => (hmem x hx).imp_right fun hx => .inl (by rw [hx]; rfl)
      armed := by rw [← hs']; exact fun doc hd => .inl hd
      flows := fun doc handled hflow => by
        refine ⟨?_, fun hw => ?_⟩
        · rw [hleft, ← hs']
          exact hflow.starts
        · rw [hleft, ← hs']
          exact hflow.whole ((hwritable doc).mp hw)
      done := fun doc _ hnil hgone => ⟨(hleft doc).trans hnil, fun hw => hgone ((hwritable doc).mp hw)⟩ }

/-! ## Steps of the background -/

/-- A task is taken off the queue. -/
theorem left_tasks {s : Relay} {task : Task} {rest : List Task} (htasks : s.tasks = task :: rest) (doc : Nat) :
    s.left doc = (task.item.sliceOf doc).toList ++ Relay.left { s with tasks := rest } doc := by
  unfold Relay.left
  rw [Relay.pipe, htasks, List.map_cons, List.cons_append, slicesOf_cons]
  rfl

/-- With the task gone, what it carries is still to come. -/
theorem Sound.pop {s : Relay} (h : s.Sound) {task : Task} {rest : List Task} (htasks : s.tasks = task :: rest) :
    SoundWith { s with tasks := rest } s.left := by
  have hpipe : s.pipe = task.item :: Relay.pipe { s with tasks := rest } := by
    rw [Relay.pipe, htasks]
    rfl
  have hsub : (Relay.pipe { s with tasks := rest }).Sublist s.pipe := hpipe ▸ List.sublist_cons_self _ _
  exact
    { sorted := h.sorted.sublist hsub
      bound := fun x hx => h.bound x (hsub.subset hx)
      isOpen := h.isOpen
      later := h.later
      current := fun r hr => ⟨(h.current r hr).1, fun x hx => (h.current r hr).2 x (hsub.subset hx)⟩
      live := fun doc id bytes hr => (h.live doc id bytes hr).same ⟨rfl, rfl, rfl⟩ fun handled hflow =>
        ⟨hflow.starts, hflow.whole⟩
      status := fun doc => (h.status doc).same ⟨rfl, rfl, rfl⟩ le_rfl (fun hflow => ⟨hflow.starts, hflow.whole⟩)
        (fun _ hnil hgone => ⟨hnil, hgone⟩) (fun hd => .inl hd) fun _ hx => hsub.subset hx
      whole := h.whole }

/-- What of the page and its messages a task leaves as it was. -/
structure Apart (s s' : Relay) : Prop where
  pipe : s'.pipe = s.pipe
  doc : s'.doc = s.doc
  hidden : s'.hidden = s.hidden
  ended : s'.ended = s.ended
  isOpen : s'.isOpen = s.isOpen
  queue : s'.queue = s.queue
  appended : s'.appended = s.appended
  armed : s'.armed = s.armed

theorem Apart.writable {s s' : Relay} (h : Apart s s') {doc : Nat} (hw : s'.Writable doc) : s.Writable doc :=
  ⟨h.doc ▸ hw.1, h.hidden ▸ hw.2.1, h.ended ▸ hw.2.2⟩

theorem Flows.apart {s s' : Relay} {doc : Nat} {handled pending : List Slice} (h : s.Flows doc handled pending)
    (hapart : Apart s s') : s'.Flows doc handled pending := by
  refine ⟨hapart.appended ▸ h.starts, fun hw => ?_⟩
  rw [hapart.appended]
  exact h.whole (hapart.writable hw)

/-- A task that leaves the recording to document `doc`, or leaves it lost. -/
theorem SoundWith.records {s s' : Relay} {pending : Nat → List Slice} (h : s.SoundWith pending)
    (hapart : Apart s s') {doc : Nat} {rest : List Slice} (hdoc : doc ≤ s.doc)
    (hahead : ∀ x ∈ s.pipe, ∀ i, x.rank = some i → 3 * doc + 1 ≤ i)
    (hbefore : ∀ r, s.rec_ = some r → r.doc = doc) (r' : Rec) (hrec : s'.rec_ = some r') (hr' : r'.doc = doc)
    (hlive : ∀ id, r'.appId = some id → s'.Live doc id rest)
    (hwhole : ∀ id < s'.next, NoHole (s.appended (s'.app id).doc) (s'.app id)) :
    s'.SoundWith (Function.update pending doc rest) where
  sorted := hapart.pipe ▸ h.sorted
  bound := by
    rw [hapart.pipe, hapart.doc, hapart.hidden, hapart.ended]
    exact h.bound
  isOpen := by
    rw [hapart.queue, hapart.isOpen]
    exact h.isOpen
  later := by
    rw [hapart.doc, hapart.appended]
    exact h.later
  current := by
    intro r hr
    rw [hrec] at hr
    cases hr
    rw [hr', hapart.doc, hapart.pipe]
    exact ⟨hdoc, hahead⟩
  live := by
    intro d id bytes hr
    rw [hrec] at hr
    cases hr
    dsimp only at hr'
    subst hr'
    rw [Function.update_self]
    exact hlive id rfl
  status := by
    intro d
    by_cases hd : d = doc
    · subst hd
      obtain ⟨rdoc, appId, bytes⟩ := r'
      dsimp only at hr'
      subst hr'
      cases appId with
      | none => exact .past (.lost bytes hrec)
      | some id => exact .live id bytes hrec
    · rw [Function.update_of_ne hd]
      cases h.status d with
      | fresh hflow => exact .fresh (hflow.apart hapart)
      | live id bytes hr => exact absurd (hbefore _ hr) hd
      | past hpast =>
        cases hpast with
        | done hle hleft hgone =>
          exact .past (.done (hapart.doc ▸ hle) hleft fun hw => hgone (hapart.writable hw))
        | lost bytes hr => exact absurd (hbefore _ hr) hd
        | refused hle harmed hactive _ =>
          refine .past (.refused (hapart.doc ▸ hle) (hapart.armed ▸ harmed) (hapart.pipe ▸ hactive) fun r hr => ?_)
          rw [hrec] at hr
          cases hr
          exact fun heq => hd (heq.symm.trans hr')
  whole := by
    rw [hapart.appended]
    exact hwhole

theorem apart_close (s : Relay) (told : Bool) :
    Apart s (s.closeRecording told) ∧ (s.closeRecording told).rec_ = none ∧ (s.closeRecording told).next = s.next := by
  unfold closeRecording
  split <;> exact ⟨⟨rfl, rfl, rfl, rfl, rfl, rfl, rfl, rfl⟩, rfl, rfl⟩

theorem whole_close {s : Relay} (h : ∀ id < s.next, NoHole (s.appended (s.app id).doc) (s.app id)) (told : Bool) :
    ∀ id < s.next, NoHole (s.appended ((s.closeRecording told).app id).doc) ((s.closeRecording told).app id) := by
  intro id hid
  have hold := h id hid
  unfold closeRecording
  split
  · rename_i doc rid bytes _
    dsimp only
    split
    · by_cases heq : id = rid
      · subst heq
        rw [Function.update_self, doc_finish]
        exact noHole_finish hold
      · rwa [Function.update_of_ne heq]
    · exact hold
  · exact hold

/-- A close is safe where nothing of the document is to come, or none of it
would be recorded. -/
theorem SoundWith.closes {s : Relay} {pending : Nat → List Slice} (h : s.SoundWith pending) (told : Bool)
    (hend : ∀ r, s.rec_ = some r → (pending r.doc = [] ∧ ¬ s.Writable r.doc) ∨
      (s.armed ≠ some r.doc ∧ .active r.doc ∉ s.pipe)) : (s.closeRecording told).SoundWith pending := by
  obtain ⟨hapart, hnone, hnext⟩ := apart_close s told
  have hpast : ∀ r, s.rec_ = some r → (s.closeRecording told).Over r.doc (pending r.doc) := by
    intro r hr
    rcases hend r hr with ⟨hleft, hgone⟩ | ⟨harmed, hactive⟩
    · exact .done (hapart.doc ▸ (h.current r hr).1) hleft fun hw => hgone (hapart.writable hw)
    · refine .refused (hapart.doc ▸ (h.current r hr).1) (hapart.armed ▸ harmed) (hapart.pipe ▸ hactive) fun q hq => ?_
      rw [hnone] at hq
      cases hq
  exact
    { sorted := hapart.pipe ▸ h.sorted
      bound := by
        rw [hapart.pipe, hapart.doc, hapart.hidden, hapart.ended]
        exact h.bound
      isOpen := by
        rw [hapart.queue, hapart.isOpen]
        exact h.isOpen
      later := by
        rw [hapart.doc, hapart.appended]
        exact h.later
      current := fun r hr => by rw [hnone] at hr; cases hr
      live := fun doc id bytes hr => by rw [hnone] at hr; cases hr
      status := by
        intro doc
        cases h.status doc with
        | fresh hflow => exact .fresh (hflow.apart hapart)
        | live id bytes hr => exact .past (hpast _ hr)
        | past hold =>
          cases hold with
          | done hle hleft hgone =>
            exact .past (.done (hapart.doc ▸ hle) hleft fun hw => hgone (hapart.writable hw))
          | lost bytes hr => exact .past (hpast _ hr)
          | refused hle harmed hactive _ =>
            refine .past (.refused (hapart.doc ▸ hle) (hapart.armed ▸ harmed) (hapart.pipe ▸ hactive) fun r hr => ?_)
            rw [hnone] at hr
            cases hr
      whole := by
        rw [hapart.appended, hnext]
        exact whole_close h.whole told }

/-- What comes of one recording's files leaves the others'. -/
theorem whole_update {s : Relay} (h : ∀ id < s.next, NoHole (s.appended (s.app id).doc) (s.app id)) {id : Nat}
    {r : AppRecording} (hr : NoHole (s.appended r.doc) r) {i : Nat} (hi : i < s.next) :
    NoHole (s.appended (Function.update s.app id r i).doc) (Function.update s.app id r i) := by
  by_cases heq : i = id
  · rw [heq, Function.update_self]
    exact hr
  · rw [Function.update_of_ne heq]
    exact h i hi

/-- The chunk is appended behind what the recording holds, or it is the last
one of which something is. -/
theorem SoundWith.posts {s : Relay} {pending : Nat → List Slice} (h : s.SoundWith pending) {doc id bytes : Nat}
    (hrec : s.rec_ = some ⟨doc, some id, bytes⟩) {slice : Slice} {rest : List Slice}
    (hpending : pending doc = slice :: rest) (fate : Fate) :
    (s.post ⟨doc, some id, bytes⟩ id slice fate).SoundWith (Function.update pending doc rest) := by
  obtain ⟨hdoc, hahead⟩ := h.current _ hrec
  have hbefore : ∀ r, s.rec_ = some r → r.doc = doc := by
    intro r hr
    rw [hrec] at hr
    cases hr
    rfl
  obtain ⟨hid, happ, handled, hflow, hfiles⟩ := h.live doc id bytes hrec
  rw [hpending] at hflow
  -- what comes to the app: nothing, a piece of the slice, or all of it
  obtain ⟨hresult, hall, n, hpiece⟩ : ((if fate.reached then (s.app id).append slice fate.disk
        else (s.app id, false)).1.doc = doc) ∧
      ((if fate.reached then (s.app id).append slice fate.disk else (s.app id, false)).2 = true →
        ∀ track part, (if fate.reached then (s.app id).append slice fate.disk else (s.app id, false)).1.files track part =
          partBytes track part handled ++ if slice.track = track ∧ slice.part = part then slice.data else []) ∧
      ∃ n, ∀ track part,
        (if fate.reached then (s.app id).append slice fate.disk else (s.app id, false)).1.files track part =
          partBytes track part handled ++ if slice.track = track ∧ slice.part = part then slice.data.take n else [] := by
    split
    · have happend := files_append (s.app id) slice fate.disk
      simp only [hfiles, happ] at happend
      exact happend
    · refine ⟨happ, fun hno => (by cases hno), 0, fun track part => ?_⟩
      rw [List.take_zero, ite_self, List.append_nil]
      exact hfiles track part
  unfold post
  dsimp only
  generalize (if fate.reached then (s.app id).append slice fate.disk else (s.app id, false)) = result at *
  have hwhole : NoHole (s.appended result.1.doc) result.1 := by
    rw [hresult]
    exact noHole_of_handled hflow.starts hpiece
  split
  · rename_i hok
    refine h.records ?_ hdoc hahead hbefore ⟨doc, some id, bytes + slice.data.length⟩ ?_ ?_ (fun id' hid' => ?_) ?_
    · exact ⟨rfl, rfl, rfl, rfl, rfl, rfl, rfl, rfl⟩
    · rfl
    · rfl
    on_goal 2 => exact fun i hi => whole_update h.whole hwhole hi
    cases hid'
    refine ⟨hid, ?_, handled ++ [slice], ⟨?_, fun hw => ?_⟩, fun track part => ?_⟩
    · show (Function.update s.app id result.1 id).doc = doc
      rw [Function.update_self, hresult]
    · rw [List.append_assoc]
      exact hflow.starts
    · rw [List.append_assoc]
      exact hflow.whole hw
    · show (Function.update s.app id result.1 id).files track part = _
      rw [Function.update_self, partBytes_append, partBytes_singleton]
      exact hall (Bool.and_eq_true_iff.mp hok).1 track part
  · refine h.records ?_ hdoc hahead hbefore ⟨doc, none, bytes⟩ ?_ ?_ ?_ fun i hi => whole_update h.whole ?_ hi
    · exact ⟨rfl, rfl, rfl, rfl, rfl, rfl, rfl, rfl⟩
    · rfl
    · rfl
    · intro id' hid'
      cases hid'
    split
    · split
      · rw [doc_finish]
        exact noHole_finish hwhole
      · exact noHole_abort _ _
    · exact hwhole

/-- A chunk for the recording its document has, which may have lost one. -/
theorem SoundWith.delivers {s : Relay} {pending : Nat → List Slice} (h : s.SoundWith pending) {r : Rec}
    (hrec : s.rec_ = some r) {slice : Slice} {rest : List Slice} (hpending : pending r.doc = slice :: rest)
    {fate : Fate} (hdecoded : fate.decoded = true) :
    (s.deliver slice fate).SoundWith (Function.update pending r.doc rest) := by
  obtain ⟨doc, appId, bytes⟩ := r
  obtain ⟨hdoc, hahead⟩ := h.current _ hrec
  cases appId with
  | some id =>
    have hdeliver : s.deliver slice fate = s.post ⟨doc, some id, bytes⟩ id slice fate := by
      unfold deliver
      rw [hrec]
      exact if_pos hdecoded
    rw [hdeliver]
    exact h.posts hrec hpending fate
  | none =>
    have hdeliver : s.deliver slice fate = s := by
      unfold deliver
      rw [hrec]
    rw [hdeliver]
    refine h.records ⟨rfl, rfl, rfl, rfl, rfl, rfl, rfl, rfl⟩ hdoc hahead (fun q hq => ?_) _ hrec rfl
      (fun id hid => (by cases hid)) h.whole
    rw [hrec] at hq
    cases hq
    rfl

/-- What is to come of a document that may not record does not matter. -/
theorem SoundWith.refuses {s : Relay} {pending : Nat → List Slice} (h : s.SoundWith pending) (hnone : s.rec_ = none)
    {doc : Nat} (hdoc : doc ≤ s.doc) (harmed : s.armed ≠ some doc) (hactive : .active doc ∉ s.pipe)
    (rest : List Slice) : s.SoundWith (Function.update pending doc rest) :=
  { h with
    live := fun d id bytes hr => by rw [hnone] at hr; cases hr
    status := by
      intro d
      by_cases hd : d = doc
      · subst hd
        refine .past (.refused hdoc harmed hactive fun r hr => ?_)
        rw [hnone] at hr
        cases hr
      · rw [Function.update_of_ne hd]
        exact h.status d }

/-- A document's first chunk starts its recording, or it is refused for good. -/
theorem SoundWith.begins {s : Relay} {pending : Nat → List Slice} (h : s.SoundWith pending) (hnone : s.rec_ = none)
    {doc : Nat} (hdoc : doc ≤ s.doc) (hahead : ∀ x ∈ s.pipe, ∀ i, x.rank = some i → 3 * doc + 1 ≤ i)
    {slice : Slice} {rest : List Slice} (hpending : pending doc = slice :: rest) {fate : Fate}
    (hread : fate.tabRead = true)
    (hsaved : fate.startSaved = true) (hdecoded : fate.decoded = true) :
    (s.begin_ doc slice fate).SoundWith (Function.update pending doc rest) := by
  have hno : ∀ r, s.rec_ = some r → r.doc = doc := by
    intro r hr
    rw [hnone] at hr
    cases hr
  have hactive : .active doc ∉ s.pipe := by
    intro hx
    have := hahead _ hx _ rfl
    omega
  unfold begin_
  split
  · rename_i harmed
    dsimp only
    -- a document that may record and has no recording is a new one
    have hflow : s.Flows doc [] (slice :: rest) := by
      rw [← hpending]
      cases h.status doc with
      | fresh hflow => exact hflow
      | live id bytes hr => rw [hnone] at hr; cases hr
      | past hpast =>
        cases hpast with
        | done _ hleft _ => rw [hpending] at hleft; cases hleft
        | lost bytes hr => rw [hnone] at hr; cases hr
        | refused _ hnot _ _ => exact absurd harmed.2 hnot
    have hsame : Function.update pending doc (slice :: rest) = pending := by
      rw [← hpending]
      exact Function.update_eq_self _ _
    cases hstarted : fate.started with
    | true =>
      have hstart : SoundWith { s with
          rec_ := some ⟨doc, some s.next, 0⟩
          app := Function.update s.app s.next (.start doc)
          next := s.next + 1 } pending := by
        rw [← hsame]
        refine h.records ?_ hdoc hahead hno ⟨doc, some s.next, 0⟩ ?_ ?_ (fun id hid => ?_) fun id hid => ?_
        · exact ⟨rfl, rfl, rfl, rfl, rfl, rfl, rfl, rfl⟩
        · rfl
        · rfl
        · cases hid
          refine ⟨Nat.lt_succ_self _, ?_, [], ⟨hflow.starts, hflow.whole⟩, fun track part => ?_⟩
          · show (Function.update s.app s.next (.start doc) s.next).doc = doc
            rw [Function.update_self]
            rfl
          · show (Function.update s.app s.next (.start doc) s.next).files track part = _
            rw [Function.update_self]
            rfl
        · dsimp only at hid ⊢
          rcases Nat.lt_succ_iff_lt_or_eq.mp hid with hlt | rfl
          · rw [Function.update_of_ne (Nat.ne_of_lt hlt)]
            exact h.whole id hlt
          · rw [Function.update_self]
            exact noHole_empty _ fun _ _ => rfl
      exact hstart.delivers rfl hpending hdecoded
    | false =>
      have hstart : SoundWith { s with rec_ := some ⟨doc, none, 0⟩ } pending := by
        rw [← hsame]
        refine h.records ?_ hdoc hahead hno ⟨doc, none, 0⟩ ?_ ?_ (fun id hid => (by cases hid)) h.whole
        · exact ⟨rfl, rfl, rfl, rfl, rfl, rfl, rfl, rfl⟩
        · rfl
        · rfl
      exact hstart.delivers rfl hpending hdecoded
  · rename_i harmed
    exact h.refuses hnone hdoc (fun hthis => harmed ⟨hread, hthis⟩) hactive rest

theorem pipe_post (s : Relay) (r : Rec) (id : Nat) (slice : Slice) (fate : Fate) :
    (s.post r id slice fate).pipe = s.pipe := by
  unfold post
  dsimp only
  generalize (if fate.reached then (s.app id).append slice fate.disk else (s.app id, false)) = result
  split <;> rfl

theorem pipe_deliver (s : Relay) (slice : Slice) (fate : Fate) : (s.deliver slice fate).pipe = s.pipe := by
  unfold deliver
  split
  · split
    · exact pipe_post s _ _ slice fate
    · rfl
  · rfl

theorem pipe_begin (s : Relay) (doc : Nat) (slice : Slice) (fate : Fate) :
    (s.begin_ doc slice fate).pipe = s.pipe := by
  unfold begin_
  split
  · dsimp only
    split
    · rw [pipe_deliver]
      split <;> rfl
    · split <;> rfl
  · rfl

/-- A task leaves what is on its way. -/
theorem pipe_onRecChunk (s : Relay) (doc : Nat) (slice : Slice) (fate : Fate) :
    (s.onRecChunk doc slice fate).pipe = s.pipe := by
  unfold onRecChunk
  split
  · split
    · exact pipe_deliver s slice fate
    · dsimp only
      split
      · rw [pipe_begin]
        exact (apart_close s _).1.pipe
      · exact (apart_close s _).1.pipe
  · exact pipe_begin s doc slice fate

theorem left_congr {s s' : Relay} (h : s'.pipe = s.pipe) : s'.left = s.left := by
  funext doc
  rw [left, left, h]

/-- Only the chunk's own document has one slice less to come. -/
theorem left_chunk {s : Relay} {doc : Nat} {slice : Slice} {rest : List Task}
    (htasks : s.tasks = .chunk doc slice :: rest) :
    s.left doc = slice :: Relay.left { s with tasks := rest } doc ∧
      Function.update s.left doc (Relay.left { s with tasks := rest } doc) = Relay.left { s with tasks := rest } := by
  have hleft := left_tasks htasks
  refine ⟨?_, funext fun d => ?_⟩
  · rw [hleft doc]
    show (if doc = doc then some slice else none).toList ++ _ = _
    rw [if_pos rfl]
    rfl
  · by_cases hd : d = doc
    · rw [hd, Function.update_self]
    · rw [Function.update_of_ne hd, hleft d]
      show (if doc = d then some slice else none).toList ++ _ = _
      rw [if_neg (Ne.symm hd)]
      rfl

/-- What is behind a task in the queue has no earlier rank. -/
theorem Sound.behind {s : Relay} (h : s.Sound) {task : Task} {rest : List Task} (htasks : s.tasks = task :: rest)
    {i : Nat} (hi : task.item.rank = some i) :
    task.item ∈ s.pipe ∧ ∀ x ∈ Relay.pipe { s with tasks := rest }, ∀ j, x.rank = some j → i ≤ j := by
  have hpipe : s.pipe = task.item :: Relay.pipe { s with tasks := rest } := by
    rw [Relay.pipe, htasks]
    rfl
  have hsorted := h.sorted
  rw [hpipe, List.pairwise_cons] at hsorted
  refine ⟨hpipe ▸ List.mem_cons_self .., fun x hx j hj => ?_⟩
  exact hsorted.1 x hx i j hi hj

/-- A chunk, where all of the documents before it came. -/
theorem SoundWith.chunk {s : Relay} {pending : Nat → List Slice} (h : s.SoundWith pending) {doc : Nat}
    (hdoc : doc ≤ s.doc) (hahead : ∀ x ∈ s.pipe, ∀ i, x.rank = some i → 3 * doc + 1 ≤ i)
    (hcurrent : ∀ r, s.rec_ = some r → r.doc ≤ doc) (hearlier : ∀ d < doc, pending d = [])
    {slice : Slice} {rest : List Slice} (hpending : pending doc = slice :: rest) {fate : Fate}
    (hclose : fate.closeSaved = true) (hread : fate.tabRead = true)
    (hsaved : fate.startSaved = true) (hdecoded : fate.decoded = true) :
    (s.onRecChunk doc slice fate).SoundWith (Function.update pending doc rest) := by
  unfold onRecChunk
  cases hrec : s.rec_ with
  | none => exact h.begins hrec hdoc hahead hpending hread hsaved hdecoded
  | some r =>
    dsimp only
    by_cases hsame : r.doc = doc
    · rw [if_pos hsame]
      subst hsame
      exact h.delivers hrec hpending hdecoded
    · rw [if_neg hsame, if_pos hclose]
      have hlt : r.doc < doc := Nat.lt_of_le_of_ne (hcurrent r hrec) hsame
      have hclosed := h.closes (fate.closeSaved && fate.told) fun q hq => by
        rw [hrec] at hq
        cases hq
        refine .inl ⟨hearlier _ hlt, fun hw => ?_⟩
        have : s.doc = r.doc := hw.1
        omega
      obtain ⟨hapart, hnone, _⟩ := apart_close s (fate.closeSaved && fate.told)
      exact hclosed.begins hnone (hapart.doc ▸ hdoc) (hapart.pipe ▸ hahead) hpending hread hsaved hdecoded

theorem Sound.runsChunk {s : Relay} (h : s.Sound) {doc : Nat} {slice : Slice} {rest : List Task}
    (htasks : s.tasks = .chunk doc slice :: rest) {fate : Fate} (hclose : fate.closeSaved = true)
    (hread : fate.tabRead = true)
    (hsaved : fate.startSaved = true) (hdecoded : fate.decoded = true) :
    (onRecChunk { s with tasks := rest } doc slice fate).Sound := by
  obtain ⟨hmem, hbehind⟩ := h.behind htasks (show Item.rank (.chunk doc slice) = some (3 * doc + 1) from rfl)
  obtain ⟨hpending, hupdate⟩ := left_chunk htasks
  have hdoc : doc ≤ s.doc := by
    have := (h.bound _ hmem _ rfl).1
    omega
  have hcurrent : ∀ r, s.rec_ = some r → r.doc ≤ doc := by
    intro r hr
    have := (h.current r hr).2 _ hmem _ rfl
    omega
  have hearlier : ∀ d < doc, s.left d = [] := by
    intro d hd
    rw [left_tasks htasks]
    show (if doc = d then some slice else none).toList ++ _ = _
    rw [if_neg (Nat.ne_of_gt hd), Option.toList_none, List.nil_append]
    refine slicesOf_eq_nil fun x hx i hi => ?_
    have := hbehind x hx i hi
    omega
  unfold Sound
  rw [left_congr (pipe_onRecChunk _ doc slice fate), ← hupdate]
  exact (h.pop htasks).chunk hdoc hbehind hcurrent hearlier hpending hclose hread hsaved hdecoded

theorem Sound.runsFinish {s : Relay} (h : s.Sound) {page : Option Nat} {rest : List Task}
    (htasks : s.tasks = .finish page :: rest) (told : Bool)
    (hkept : page = none → ∀ r, s.rec_ = some r → s.armed = some r.doc → s.left r.doc = [] ∧ ¬ s.Writable r.doc) :
    (closeRecording { s with tasks := rest } told).Sound := by
  have hpop := h.pop htasks
  have hleft : Relay.left { s with tasks := rest } = s.left := by
    funext doc
    rw [left_tasks htasks]
    cases page <;> rfl
  unfold Sound
  rw [left_congr (apart_close _ told).1.pipe, hleft]
  refine hpop.closes told fun r hrec => ?_
  cases page with
  | none =>
    by_cases harmed : s.armed = some r.doc
    · exact .inl (hkept rfl r hrec harmed)
    · refine .inr ⟨harmed, fun hactive => ?_⟩
      have := (hpop.current r hrec).2 _ hactive _ rfl
      omega
  | some doc =>
    obtain ⟨hmem, hbehind⟩ := h.behind htasks (show Item.rank (.end_ doc) = some (3 * doc + 2) from rfl)
    have hle := (h.current r hrec).2 _ hmem _ rfl
    refine .inl ⟨?_, fun hw => ?_⟩
    · rw [← hleft]
      refine slicesOf_eq_nil fun x hx i hi => ?_
      have := hbehind x hx i hi
      omega
    · -- the document ended before it asked for this
      obtain ⟨hdoc, hhidden, hended⟩ := hw
      have := (h.bound _ hmem _ rfl).2 hhidden hended
      have : s.doc = r.doc := hdoc
      omega

/-! ## Runs -/

theorem sound_start : start.Sound where
  sorted := List.Pairwise.nil
  bound := fun _ hx => by cases hx
  isOpen := fun _ hx => by cases hx
  later := fun _ _ => rfl
  current := fun _ hr => by cases hr
  live := fun _ _ _ hr => by cases hr
  status := fun _ => .fresh ⟨List.prefix_rfl, fun _ => rfl⟩
  whole := fun _ hid => by cases hid

theorem Sound.step {s s' : Relay} (h : s.Sound) {e : Event} (hkept : s.Kept e) (hstep : s.step e = some s') :
    s'.Sound := by
  cases e with
  | append track part buf => exact h.appends hstep
  | endStream => exact h.ends hstep
  | turn encoded =>
    have htrue : encoded = true := hkept
    subst htrue
    exact h.turns hstep
  | pagehide => exact h.pagehides hstep
  | load capturing => exact h.loads hstep
  | arrive armed => exact h.arrives hstep
  | lose => exact h.loses hkept hstep
  | disarm => exact h.disarms hstep
  | askFinish => exact h.asks hstep
  | run fate =>
    rw [Relay.step] at hstep
    unfold Kept at hkept
    split at hstep
    · rename_i doc slice rest htasks
      cases hstep
      simp only [htasks] at hkept
      exact h.runsChunk htasks hkept.1 hkept.2.1 hkept.2.2.1 hkept.2.2.2
    · rename_i page rest htasks
      cases hstep
      simp only [htasks] at hkept
      refine h.runsFinish htasks fate.told fun hpage => ?_
      subst hpage
      exact hkept
    · cases hstep

theorem sound_invariant : keptRelays.Invariant Sound :=
  TSys.Inductive.invariant
    { init := by
        rintro s rfl
        exact sound_start
      step := fun _ _ h ⟨_, hkept, hstep⟩ => h.step hkept hstep }

/-! ## A recording that is not recorded to -/

/-- The background does not record to `id` any more. -/
def Retired (s : Relay) (id : Nat) : Prop := id < s.next ∧ ∀ r, s.rec_ = some r → r.appId ≠ some id

theorem Retired.closes {s : Relay} {id : Nat} (h : s.Retired id) (told : Bool) :
    (s.closeRecording told).Retired id ∧ (s.closeRecording told).app id = s.app id := by
  obtain ⟨_, hnone, hnext⟩ := apart_close s told
  refine ⟨⟨hnext ▸ h.1, fun r hr => by rw [hnone] at hr; cases hr⟩, ?_⟩
  unfold closeRecording
  split
  · rename_i doc rid bytes hrec
    have hne : id ≠ rid := fun heq => h.2 _ hrec (heq ▸ rfl)
    dsimp only
    split
    · exact Function.update_of_ne hne _ _
    · rfl
  · rfl

theorem Retired.posts {s : Relay} {id : Nat} (h : s.Retired id) {doc rid bytes : Nat}
    (hrec : s.rec_ = some ⟨doc, some rid, bytes⟩) (slice : Slice) (fate : Fate) :
    (s.post ⟨doc, some rid, bytes⟩ rid slice fate).Retired id ∧
      (s.post ⟨doc, some rid, bytes⟩ rid slice fate).app id = s.app id := by
  have hne : id ≠ rid := fun heq => h.2 _ hrec (heq ▸ rfl)
  unfold post
  dsimp only
  generalize (if fate.reached then (s.app rid).append slice fate.disk else (s.app rid, false)) = result
  split
  · refine ⟨⟨h.1, fun r hr => ?_⟩, Function.update_of_ne hne _ _⟩
    cases hr
    exact fun heq => hne (Option.some.inj heq).symm
  · refine ⟨⟨h.1, fun r hr => ?_⟩, Function.update_of_ne hne _ _⟩
    cases hr
    exact fun heq => (by cases heq)

theorem Retired.delivers {s : Relay} {id : Nat} (h : s.Retired id) (slice : Slice) (fate : Fate) :
    (s.deliver slice fate).Retired id ∧ (s.deliver slice fate).app id = s.app id := by
  unfold deliver
  split
  · rename_i hrec
    split
    · exact h.posts hrec slice fate
    · exact ⟨h, rfl⟩
  · exact ⟨h, rfl⟩

theorem Retired.begins {s : Relay} {id : Nat} (h : s.Retired id) (doc : Nat) (slice : Slice) (fate : Fate) :
    (s.begin_ doc slice fate).Retired id ∧ (s.begin_ doc slice fate).app id = s.app id := by
  -- what is started has a number of its own
  have hstart : Retired { s with
      rec_ := some ⟨doc, some s.next, 0⟩
      app := Function.update s.app s.next (.start doc)
      next := s.next + 1 } id := by
    refine ⟨h.1.trans (Nat.lt_succ_self _), fun r hr => ?_⟩
    cases hr
    exact fun heq => Nat.ne_of_gt h.1 (Option.some.inj heq)
  have happ : Function.update s.app s.next (.start doc) id = s.app id :=
    Function.update_of_ne (Nat.ne_of_lt h.1) _ _
  have hnone : Retired { s with rec_ := some ⟨doc, none, 0⟩ } id := by
    refine ⟨h.1, fun r hr => ?_⟩
    cases hr
    exact fun heq => (by cases heq)
  unfold begin_
  split
  · dsimp only
    cases fate.started with
    | true =>
      split
      · exact ⟨(hstart.delivers slice fate).1, (hstart.delivers slice fate).2.trans happ⟩
      · exact ⟨hstart, happ⟩
    | false =>
      split
      · exact hnone.delivers slice fate
      · exact ⟨hnone, rfl⟩
  · exact ⟨h, rfl⟩

/-- Nothing is added to a recording the background does not record to. -/
theorem Retired.step {s s' : Relay} {id : Nat} (h : s.Retired id) {e : Event} (hstep : s.step e = some s') :
    s'.Retired id ∧ s'.app id = s.app id := by
  cases e with
  | run fate =>
    rw [Relay.step] at hstep
    split at hstep
    · rename_i doc slice rest _
      cases hstep
      have hpop : Retired { s with tasks := rest } id := h
      unfold onRecChunk
      split
      · split
        · exact hpop.delivers slice fate
        · have hclosed := hpop.closes (fate.closeSaved && fate.told)
          have hbegun := hclosed.1.begins doc slice fate
          dsimp only
          split
          · exact ⟨hbegun.1, hbegun.2.trans hclosed.2⟩
          · exact hclosed
      · exact hpop.begins doc slice fate
    · rename_i page rest _
      cases hstep
      have hpop : Retired { s with tasks := rest } id := h
      exact hpop.closes fate.told
    · cases hstep
  -- none of the others comes to the background's recording, nor to the app
  | load | disarm | askFinish =>
    cases hstep
    exact ⟨h, rfl⟩
  | append | endStream | turn | pagehide | arrive | lose =>
    simp only [Relay.step] at hstep
    split at hstep <;> cases hstep <;> exact ⟨h, rfl⟩

theorem retired_steps {s s' : Relay} {id : Nat} (h : s.Retired id) (hsteps : keptRelays.Steps s s') :
    s'.app id = s.app id := by
  have hboth : s'.Retired id ∧ s'.app id = s.app id := by
    induction hsteps with
    | refl => exact ⟨h, rfl⟩
    | tail _ hstep ih =>
      obtain ⟨e, _, hstep⟩ := hstep
      have hnext := ih.1.step hstep
      exact ⟨hnext.1, hnext.2.trans ih.2⟩
  exact hboth.2

end Relay

/-- What the files of a recording hold without a hole is a prefix of what was
appended. -/
theorem NoHole.isPrefix {appended : List Slice} {r : AppRecording} (h : NoHole appended r) (track part : Nat) :
    r.files track part <+: partBytes track part appended := by
  obtain ⟨m, _, hparts⟩ := h
  exact (hparts track part).2.trans (partBytes_mono (List.take_prefix (m + 1) appended) track part)

/-- Where no slice is lost unnoticed, no recording has a hole, and nothing is
added to one that lost a slice. -/
theorem no_hole_when_kept {s : Relay} (hreach : keptRelays.Reachable s) :
    (∀ id < s.next, NoHole (s.appended (s.app id).doc) (s.app id)) ∧
      ∀ doc bytes, s.rec_ = some ⟨doc, none, bytes⟩ → ∀ s', keptRelays.Steps s s' →
        ∀ id < s.next, s'.app id = s.app id := by
  refine ⟨(Relay.sound_invariant s hreach).whole, fun doc bytes hrec s' hsteps id hid => ?_⟩
  refine Relay.retired_steps ⟨hid, fun r hr => ?_⟩ hsteps
  rw [hrec] at hr
  cases hr
  exact fun heq => (by cases heq)

theorem slices_short {track part : Nat} {buf : List UInt8} (hne : buf ≠ []) (hshort : buf.length ≤ sliceSize) :
    slices track part buf = [⟨track, part, buf⟩] := by
  rw [slices, if_neg hne, List.take_of_length_le hshort, List.drop_eq_nil_of_le hshort, slices, if_pos rfl]

theorem reachable_of_kept {s : Relay} (h : keptRelays.Reachable s) : relays.toTSys.Reachable s := by
  induction h with
  | init h => exact .init h
  | step _ hstep ih =>
    obtain ⟨e, _, hstep⟩ := hstep
    exact ih.step ⟨e, hstep⟩

/-- The first document that records appended `ss`, none of which is sent. -/
def Relay.waiting (ss : List Slice) : Relay :=
  { Relay.start with
    doc := 1
    hidden := false
    isOpen := !ss.isEmpty
    appended := Function.update (fun _ => []) 1 ss
    queue := ss.map .slice
    armed := some 1 }

theorem Relay.waiting_append {ss : List Slice} (h : keptRelays.Reachable (.waiting ss)) (buf : List UInt8)
    (hne : buf ≠ []) (hshort : buf.length ≤ sliceSize) : keptRelays.Reachable (.waiting (ss ++ [⟨0, 0, buf⟩])) := by
  refine h.step ⟨.append 0 0 buf, trivial, ?_⟩
  have hempty : buf.isEmpty = false := by simpa using hne
  have hopen : (ss ++ [(⟨0, 0, buf⟩ : Slice)]).isEmpty = false := by simp
  rw [Relay.step, slices_short hne hshort, hempty]
  simp [waiting, start, hopen]

theorem Relay.reachable_waiting : keptRelays.Reachable (.waiting []) := by
  have hload : keptRelays.Reachable { Relay.start with doc := 1, hidden := false, channel := [.active 1] } :=
    .step (.init rfl) ⟨.load true, trivial, rfl⟩
  refine hload.step ⟨.arrive true, trivial, ?_⟩
  simp [Relay.step, waiting, start]

/-- A task of which all goes well. -/
def Fate.well : Fate := ⟨true, true, true, true, true, true, none, true, true⟩

/-- The second of two slices does not reach the app: the first is what stays. -/
theorem no_hole_when_kept_two : ∃ s, keptRelays.Reachable s ∧ (s.app 0).files 0 0 = [1] ∧
    NoHole (s.appended 1) (s.app 0) ∧ ∀ s', keptRelays.Steps s s' → s'.app 0 = s.app 0 := by
  have hone := Relay.waiting_append Relay.reachable_waiting [1] (by simp) (by decide)
  have htwo := Relay.waiting_append hone [2] (by simp) (by decide)
  have hsent : keptRelays.Reachable { Relay.waiting [⟨0, 0, [1]⟩, ⟨0, 0, [2]⟩] with
      queue := [], channel := [.chunk 1 ⟨0, 0, [1]⟩, .chunk 1 ⟨0, 0, [2]⟩] } :=
    (htwo.step ⟨.turn true, rfl, rfl⟩).step ⟨.turn true, rfl, rfl⟩
  have hcame : keptRelays.Reachable { Relay.waiting [⟨0, 0, [1]⟩, ⟨0, 0, [2]⟩] with
      queue := [], tasks := [.chunk 1 ⟨0, 0, [1]⟩, .chunk 1 ⟨0, 0, [2]⟩] } :=
    (hsent.step ⟨.arrive true, trivial, rfl⟩).step ⟨.arrive true, trivial, rfl⟩
  have hfirst := hcame.step ⟨.run .well, ⟨rfl, rfl, rfl, rfl⟩, rfl⟩
  have hlost := hfirst.step ⟨.run { Fate.well with reached := false, told := false }, ⟨rfl, rfl, rfl, rfl⟩, rfl⟩
  have hwhole := no_hole_when_kept hlost
  exact ⟨_, hlost, rfl, hwhole.1 0 Nat.one_pos, fun s' hsteps => hwhole.2 1 1 rfl s' hsteps 0 Nat.one_pos⟩

/-- Three slices are appended and the second cannot be encoded: the file goes
on with the third behind the first. -/
theorem skipped_slice_leaves_hole : ¬ relays.toTSys.Invariant fun s =>
    ∀ id < s.next, ∀ track part, (s.app id).files track part <+: partBytes track part (s.appended (s.app id).doc) := by
  intro hstarts
  have hone := Relay.waiting_append Relay.reachable_waiting [1] (by simp) (by decide)
  have htwo := Relay.waiting_append hone [2] (by simp) (by decide)
  have hthree := Relay.waiting_append htwo [3] (by simp) (by decide)
  have hrun : ∃ s, relays.run (.waiting [⟨0, 0, [1]⟩, ⟨0, 0, [2]⟩, ⟨0, 0, [3]⟩])
      [.turn true, .turn false, .turn true, .arrive true, .arrive true, .run .well, .run .well] = some s ∧
      0 < s.next ∧ (s.app 0).files 0 0 = [1, 3] ∧ partBytes 0 0 (s.appended (s.app 0).doc) = [1, 2, 3] :=
    ⟨_, rfl, Nat.one_pos, rfl, rfl⟩
  obtain ⟨s, hs, hid, hfiles, hpage⟩ := hrun
  have hbad := hstarts s (Machine.reachable_run (reachable_of_kept hthree) hs) 0 hid 0 0
  rw [hfiles, hpage] at hbad
  simp at hbad

end Browser

end Hyperfetch
