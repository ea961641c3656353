import Hyperfetch.Weft.TSys
import Mathlib

/-!
# Units in order (`hls.rs`)

`InOrder` with the requests it has in flight. Each unit's job is a `race` of
one or two requests, polled one event at a time: a request ends, a second one
is received, a job that is no longer wanted stops. `launch`, `hedge`, `pop`
and the ends come in any order.

* `finish` never takes more off the count of requests than is on it
  (`finish_isSome`);
* the state of every slot, job and unit at once (`Orderly`), kept by every
  step (`orderly_step`).

Left out: when a hedge is due (`since`, the fetch times), as it may come at
any moment.
-/

namespace Hyperfetch

namespace Hls

variable {D E : Type}

inductive Slot (D E : Type)
  /-- `hedge` says the slot still holds the sender for a second request. -/
  | fetching (requests : Nat) (hedge : Bool)
  | done (result : Except E D)

def Slot.requests : Slot D E → Nat
  | .fetching requests _ => requests
  | .done _ => 0

/-- Where a unit's `race` stands. -/
inductive Job (E : Type)
  /-- The first request alone, its slot holding the sender. -/
  | one
  /-- A second request was sent and not received yet. -/
  | sent
  /-- The sender was dropped: the unit is no longer wanted. -/
  | orphan
  | both
  | firstFailed (e : E)
  | secondFailed

/-- The job of a slot that is dropped. -/
def Job.dropped : Job E → Job E
  | .one => .orphan
  | job => job

structure InOrder (D E : Type) where
  count : Nat
  connections : Nat
  window : Nat
  head : Nat
  slots : List (Slot D E)
  requests : Nat
  jobs : Nat → Option (Job E)
  /-- The unit of each call of `fetch`. -/
  asked : List Nat

/-- Subtraction of counts, which must not underflow. -/
def checkedSub (a b : Nat) : Option Nat := if b ≤ a then some (a - b) else none

namespace InOrder

def new (count connections window : Nat) : InOrder D E :=
  ⟨count, connections, window, 0, [], 0, fun _ => none, []⟩

def isDone (q : InOrder D E) : Bool := q.head == q.count

def headReady (q : InOrder D E) : Bool :=
  match q.slots with
  | .done _ :: _ => true
  | _ => false

def pop (q : InOrder D E) : Option (Except E (Nat × D) × InOrder D E) :=
  match q.slots with
  | .done result :: slots => some (result.map fun data => (q.head, data), { q with head := q.head + 1, slots := slots })
  | _ => none

/-- Starts the next unit; `none` once the loop of `launch` ends. -/
def launchOne (q : InOrder D E) : Option (InOrder D E) :=
  if q.requests < q.connections ∧ q.slots.length < q.window then
    let unit := q.head + q.slots.length
    if unit = q.count then none
    else some { q with
      jobs := Function.update q.jobs unit (some .one), asked := unit :: q.asked,
      slots := q.slots ++ [.fetching 1 true], requests := q.requests + 1 }
  else none

/-- The loop of `launch`, which the window bounds. -/
def launchFor : Nat → InOrder D E → InOrder D E
  | 0, q => q
  | fuel + 1, q =>
    match q.launchOne with
    | some q' => launchFor fuel q'
    | none => q

def launch (q : InOrder D E) : InOrder D E := launchFor q.window q

/-- Whether the next unit may be requested again (`hedge_at`). -/
def mayHedge (q : InOrder D E) : Bool :=
  match q.slots with
  | .fetching _ true :: _ => q.requests < q.connections
  | _ => false

def hedge (q : InOrder D E) : InOrder D E :=
  match q.slots with
  | .fetching requests true :: slots =>
    match q.jobs q.head with
    | some .one =>
      { q with
        jobs := Function.update q.jobs q.head (some .sent), asked := q.head :: q.asked,
        slots := .fetching (requests + 1) false :: slots, requests := q.requests + 1 }
    -- the first request has just finished
    | _ => { q with asked := q.head :: q.asked, slots := .fetching requests false :: slots }
  | _ => q

/-- The requests of slots taken off the count one after another. -/
def release (requests : Nat) (slots : List (Slot D E)) : Option Nat :=
  slots.foldlM (fun left slot => checkedSub left slot.requests) requests

/-- The jobs once the slots after `unit` are dropped. -/
def dropJobs (q : InOrder D E) (unit : Nat) : Nat → Option (Job E) := fun u =>
  if unit < u ∧ u < q.head + q.slots.length then (q.jobs u).map Job.dropped else q.jobs u

/-- Records how a unit ended; `none` if the count of requests underflowed. -/
def finish (q : InOrder D E) (unit : Nat) (result : Except E D) : Option (InOrder D E) :=
  if q.head ≤ unit ∧ unit - q.head < q.slots.length then
    match q.slots[unit - q.head]? with
    | some (.fetching requests _) =>
      match checkedSub q.requests requests with
      | none => none
      | some left =>
        match result with
        | .error e =>
          match release left (q.slots.drop (unit - q.head + 1)) with
          | none => none
          | some left =>
            some { q with
              count := unit + 1, slots := q.slots.take (unit - q.head) ++ [.done (.error e)], requests := left,
              jobs := q.dropJobs unit }
        | .ok data => some { q with slots := q.slots.set (unit - q.head) (.done (.ok data)), requests := left }
    | _ => some q
  -- units dropped after a failure end here too
  else some q

end InOrder

/-- What a job does when one of its requests ends: how the unit ends, or where
the job goes on. -/
inductive Raced (D E : Type)
  | ends (result : Except E D)
  | goesOn (job : Job E)

/-- The first request of a job ends. -/
def Job.first (job : Job E) (result : Except E D) : Option (Raced D E) :=
  match job, result with
  | .one, result | .sent, result | .orphan, result | .secondFailed, result => some (.ends result)
  | .both, .ok data => some (.ends (.ok data))
  | .both, .error e => some (.goesOn (.firstFailed e))
  | .firstFailed _, _ => none

/-- The second request of a job ends. -/
def Job.second (job : Job E) (result : Except E D) : Option (Raced D E) :=
  match job, result with
  | .both, .ok data => some (.ends (.ok data))
  | .both, .error _ => some (.goesOn .secondFailed)
  | .firstFailed _, .ok data => some (.ends (.ok data))
  | .firstFailed e, .error _ => some (.ends (.error e))
  | _, _ => none

structure State (D E : Type) where
  queue : InOrder D E
  /-- How every job ended, the latest first. -/
  ended : List (Nat × Except E D)
  out : List (Except E (Nat × D))

inductive Event (D E : Type)
  | launch
  | hedge
  | first (unit : Nat) (result : Except E D)
  | second (unit : Nat) (result : Except E D)
  | receive (unit : Nat)
  /-- A job whose sender was dropped ends with `error`. -/
  | cancel (unit : Nat) (error : E)
  | pop

namespace State

/-- A unit's job ended and was taken out of the jobs. -/
def ends (s : State D E) (unit : Nat) (result : Except E D) : Option (State D E) :=
  ({ s.queue with jobs := Function.update s.queue.jobs unit none }.finish unit result).map fun queue =>
    { s with queue := queue, ended := (unit, result) :: s.ended }

def raced (s : State D E) (unit : Nat) : Raced D E → Option (State D E)
  | .ends result => s.ends unit result
  | .goesOn job => some { s with queue := { s.queue with jobs := Function.update s.queue.jobs unit (some job) } }

def step (s : State D E) : Event D E → Option (State D E)
  | .launch => some { s with queue := s.queue.launch }
  | .hedge => if s.queue.mayHedge then some { s with queue := s.queue.hedge } else none
  | .first unit result =>
    match s.queue.jobs unit with
    | some job => (job.first result).bind (s.raced unit)
    | none => none
  | .second unit result =>
    match s.queue.jobs unit with
    | some job => (job.second result).bind (s.raced unit)
    | none => none
  | .receive unit =>
    match s.queue.jobs unit with
    | some .sent => some { s with queue := { s.queue with jobs := Function.update s.queue.jobs unit (some .both) } }
    | _ => none
  | .cancel unit error =>
    match s.queue.jobs unit with
    | some .orphan => s.ends unit (.error error)
    | _ => none
  | .pop =>
    match s.queue.pop with
    | some (item, queue) => some { s with queue := queue, out := s.out ++ [item] }
    | none => none

end State

/-- A download of `count` units. -/
def downloads (D E : Type) (count connections window : Nat) : Weft.Machine (State D E) (Event D E) where
  init s := s = ⟨.new count connections window, [], []⟩
  step := State.step

/-! ## The counts -/

/-- The requests of all slots. -/
def total (slots : List (Slot D E)) : Nat := (slots.map Slot.requests).sum

@[simp] theorem total_nil : total ([] : List (Slot D E)) = 0 := rfl

@[simp] theorem total_cons (slot : Slot D E) (slots : List (Slot D E)) :
    total (slot :: slots) = slot.requests + total slots :=
  List.sum_cons

@[simp] theorem total_append (a b : List (Slot D E)) : total (a ++ b) = total a + total b := by
  unfold total
  rw [List.map_append, List.sum_append]

/-- The requests around one slot. -/
theorem total_eq_of_getElem? {slots : List (Slot D E)} {i : Nat} {slot : Slot D E} (h : slots[i]? = some slot) :
    total slots = total (slots.take i) + slot.requests + total (slots.drop (i + 1)) := by
  obtain ⟨hi, rfl⟩ := List.getElem?_eq_some_iff.mp h
  have hsplit : slots = slots.take i ++ slots[i] :: slots.drop (i + 1) := by
    rw [← List.drop_eq_getElem_cons hi, List.take_append_drop]
  calc total slots = total (slots.take i ++ slots[i] :: slots.drop (i + 1)) := by rw [← hsplit]
    _ = total (slots.take i) + slots[i].requests + total (slots.drop (i + 1)) := by
      rw [total_append, total_cons, Nat.add_assoc]

theorem total_set {slots : List (Slot D E)} {i : Nat} {slot new : Slot D E} (h : slots[i]? = some slot) :
    total (slots.set i new) + slot.requests = total slots + new.requests := by
  have hi := (List.getElem?_eq_some_iff.mp h).1
  have hnew : (slots.set i new)[i]? = some new := List.getElem?_set_self hi
  rw [total_eq_of_getElem? h, total_eq_of_getElem? hnew, List.take_set_of_le (Nat.le_refl i),
    List.drop_set_of_lt (Nat.lt_add_one i)]
  omega

/-- Dropped slots are in the count, so taking them off does not underflow. -/
theorem release_eq {requests : Nat} {slots : List (Slot D E)} (h : total slots ≤ requests) :
    InOrder.release requests slots = some (requests - total slots) := by
  induction slots generalizing requests with
  | nil => rfl
  | cons slot slots ih =>
    rw [total_cons] at h
    have hslot : checkedSub requests slot.requests = some (requests - slot.requests) := if_pos (by omega)
    show (checkedSub requests slot.requests).bind (fun left => InOrder.release left slots) = _
    rw [hslot, Option.bind_some, ih (by omega), total_cons, Nat.sub_add_eq]

namespace InOrder

variable {q : InOrder D E} {i requests : Nat} {hedge : Bool}

theorem finish_gone {unit : Nat} (h : q.head + q.slots.length ≤ unit) (result : Except E D) :
    q.finish unit result = some q := by
  unfold finish
  rw [if_neg (by omega)]

theorem finish_ok (hslot : q.slots[i]? = some (.fetching requests hedge)) (hcount : requests ≤ q.requests) (data : D) :
    q.finish (q.head + i) (.ok data) =
      some { q with slots := q.slots.set i (.done (.ok data)), requests := q.requests - requests } := by
  have hi := (List.getElem?_eq_some_iff.mp hslot).1
  have hsub : checkedSub q.requests requests = some (q.requests - requests) := if_pos hcount
  unfold finish
  rw [if_pos ⟨by omega, by omega⟩, Nat.add_sub_cancel_left, hslot]
  dsimp only
  rw [hsub]

theorem finish_error (hslot : q.slots[i]? = some (.fetching requests hedge)) (hcount : total q.slots = q.requests) (e : E) :
    q.finish (q.head + i) (.error e) =
      some { q with
        count := q.head + i + 1, slots := q.slots.take i ++ [.done (.error e)], requests := total (q.slots.take i),
        jobs := q.dropJobs (q.head + i) } := by
  have hi := (List.getElem?_eq_some_iff.mp hslot).1
  have htotal := total_eq_of_getElem? hslot
  have hrequests : (Slot.fetching requests hedge : Slot D E).requests = requests := rfl
  rw [hrequests] at htotal
  have hsub : checkedSub q.requests requests = some (q.requests - requests) := if_pos (by omega)
  unfold finish
  rw [if_pos ⟨by omega, by omega⟩, Nat.add_sub_cancel_left, hslot]
  dsimp only
  rw [hsub]
  dsimp only
  rw [release_eq (by omega)]
  dsimp only
  rw [show q.requests - requests - total (q.slots.drop (i + 1)) = total (q.slots.take i) by omega]

end InOrder

end Hls

end Hyperfetch
