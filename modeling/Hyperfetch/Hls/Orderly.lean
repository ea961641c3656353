import Hyperfetch.Hls.InOrder

/-!
# What `InOrder` keeps to

One invariant for the slots, the jobs, the requests and what came out, over
any order of the events (`orderly_reachable`), and from it that a download
hands out its units in order, within its limits, and never gets stuck.
-/

namespace Hyperfetch

namespace Hls

variable {D E : Type}

/-- A second request was made. -/
def Job.Doubled : Job E → Prop
  | .one | .orphan => False
  | .sent | .both | .firstFailed _ | .secondFailed => True

/-- A slot, its job and how often its unit was asked for. -/
def SlotOk (s : State D E) (i : Nat) : Slot D E → Prop
  | .fetching requests true =>
    requests = 1 ∧ s.queue.jobs (s.queue.head + i) = some .one ∧ s.queue.asked.count (s.queue.head + i) = 1
  -- only the next unit is requested a second time
  | .fetching requests false =>
    i = 0 ∧ requests = 2 ∧ (∃ job, s.queue.jobs (s.queue.head + i) = some job ∧ job.Doubled) ∧
      s.queue.asked.count (s.queue.head + i) = 2
  | .done result =>
    s.queue.jobs (s.queue.head + i) = none ∧ s.queue.asked.count (s.queue.head + i) ≤ 2 ∧
      (s.queue.head + i, result) ∈ s.ended ∧ ∀ e, result = .error e → s.queue.count = s.queue.head + i + 1

/-- What came out at place `i`. -/
def OutOk (s : State D E) (i : Nat) : Except E (Nat × D) → Prop
  | .ok (unit, data) => unit = i ∧ (i, .ok data) ∈ s.ended
  | .error e => (i, .error e) ∈ s.ended ∧ s.queue.count = i + 1 ∧ s.queue.head = i + 1

/-- A state of a download of `units` units. -/
structure Orderly (units : Nat) (s : State D E) : Prop where
  span : s.queue.head + s.queue.slots.length ≤ s.queue.count
  window : s.queue.slots.length ≤ s.queue.window
  requests : s.queue.requests = total s.queue.slots
  connections : s.queue.requests ≤ s.queue.connections
  slots : ∀ i slot, s.queue.slots[i]? = some slot → SlotOk s i slot
  handedOut : ∀ u < s.queue.head, s.queue.jobs u = none ∧ s.queue.asked.count u ≤ 2
  notStarted : ∀ u, s.queue.head + s.queue.slots.length ≤ u →
    (s.queue.jobs u = none ∨ s.queue.jobs u = some .orphan) ∧ s.queue.asked.count u ≤ 2
  /-- While units are left to start no unit has failed. -/
  fresh : s.queue.head + s.queue.slots.length < s.queue.count →
    ∀ u, s.queue.head + s.queue.slots.length ≤ u → s.queue.jobs u = none ∧ s.queue.asked.count u = 0
  errors : ∀ u e, (u, Except.error e) ∈ s.ended → s.queue.count ≤ u + 1
  last : s.queue.count ≤ units ∧ (s.queue.count = units ∨ ∃ u e, (u, Except.error e) ∈ s.ended ∧ s.queue.count = u + 1)
  out_length : s.out.length = s.queue.head
  out : ∀ i item, s.out[i]? = some item → OutOk s i item

theorem orderly_start (units connections window : Nat) :
    Orderly units (⟨.new units connections window, [], []⟩ : State D E) where
  span := Nat.zero_le _
  window := Nat.zero_le _
  requests := rfl
  connections := Nat.zero_le _
  slots := fun _ _ h => by cases h
  handedOut := fun _ h => absurd h (Nat.not_lt_zero _)
  notStarted := fun _ _ => ⟨.inl rfl, Nat.zero_le _⟩
  fresh := fun _ _ _ => ⟨rfl, rfl⟩
  errors := fun _ _ h => by cases h
  last := ⟨Nat.le_refl _, .inl rfl⟩
  out_length := rfl
  out := fun _ _ h => by cases h

/-! ## Frames -/

/-- A slot and its unit's job and count are as they were. -/
theorem SlotOk.frame {s s' : State D E} {i i' : Nat} {slot : Slot D E} (h : SlotOk s i slot)
    (hunit : s'.queue.head + i' = s.queue.head + i) (hplace : i = 0 → i' = 0)
    (hjob : s'.queue.jobs (s.queue.head + i) = s.queue.jobs (s.queue.head + i))
    (hasked : s'.queue.asked.count (s.queue.head + i) = s.queue.asked.count (s.queue.head + i))
    (hended : s.ended ⊆ s'.ended)
    (hcount : s.queue.count = s.queue.head + i + 1 → s'.queue.count = s.queue.head + i + 1) : SlotOk s' i' slot := by
  cases slot with
  | fetching requests hedge =>
    cases hedge with
    | true =>
      show requests = 1 ∧ s'.queue.jobs (s'.queue.head + i') = some .one ∧ _ = 1
      rw [hunit, hjob, hasked]
      exact h
    | false =>
      obtain ⟨hzero, htwo, hdoubled, hcount'⟩ := h
      refine ⟨hplace hzero, htwo, ?_, ?_⟩
      · rw [hunit, hjob]
        exact hdoubled
      · rw [hunit, hasked]
        exact hcount'
  | done result =>
    obtain ⟨hnone, htwo, hmem, herror⟩ := h
    show s'.queue.jobs (s'.queue.head + i') = none ∧ _
    rw [hunit, hjob, hasked]
    exact ⟨hnone, htwo, hended hmem, fun e he => hcount (herror e he)⟩

theorem OutOk.frame {s s' : State D E} {i : Nat} {item : Except E (Nat × D)} (h : OutOk s i item)
    (hended : s.ended ⊆ s'.ended)
    (hcount : s.queue.count = i + 1 → s.queue.head = i + 1 → s'.queue.count = i + 1 ∧ s'.queue.head = i + 1) :
    OutOk s' i item := by
  cases item with
  | ok pair => exact ⟨h.1, hended h.2⟩
  | error e => exact ⟨hended h.1, hcount h.2.1 h.2.2⟩

variable {units : Nat} {s s' : State D E}

/-- Where the unit of a job in flight is. -/
theorem Orderly.job_cases (h : Orderly units s) {unit : Nat} {job : Job E} (hjob : s.queue.jobs unit = some job) :
    (∃ i requests hedge, s.queue.slots[i]? = some (.fetching requests hedge) ∧ unit = s.queue.head + i) ∨
      job = .orphan ∧ s.queue.head + s.queue.slots.length = s.queue.count ∧ s.queue.count ≤ unit := by
  rcases Nat.lt_or_ge unit s.queue.head with hbefore | hhead
  · rw [(h.handedOut unit hbefore).1] at hjob
    cases hjob
  rcases Nat.lt_or_ge unit (s.queue.head + s.queue.slots.length) with hin | hafter
  · obtain ⟨i, rfl⟩ : ∃ i, unit = s.queue.head + i := ⟨unit - s.queue.head, by omega⟩
    have hi : i < s.queue.slots.length := by omega
    have hslot : s.queue.slots[i]? = some s.queue.slots[i] := List.getElem?_eq_getElem hi
    cases hget : s.queue.slots[i] with
    | fetching requests hedge => exact .inl ⟨i, requests, hedge, hget ▸ hslot, rfl⟩
    | done result =>
      have hok := h.slots i _ (hget ▸ hslot)
      rw [hok.1] at hjob
      cases hjob
  · -- only once a unit has failed is a job left of a unit that is not started
    rcases Nat.lt_or_ge (s.queue.head + s.queue.slots.length) s.queue.count with hmore | hfull
    · rw [(h.fresh hmore unit hafter).1] at hjob
      cases hjob
    · have horphan := (h.notStarted unit hafter).1
      rw [hjob] at horphan
      have hspan := h.span
      refine .inr ⟨?_, by omega, by omega⟩
      rcases horphan with hnone | horphan
      · cases hnone
      · exact Option.some.inj horphan

/-! ## Starting requests -/

theorem orderly_launchOne (h : Orderly units s) {q : InOrder D E} (hlaunch : s.queue.launchOne = some q) :
    Orderly units { s with queue := q } := by
  unfold InOrder.launchOne at hlaunch
  split at hlaunch
  case isFalse => cases hlaunch
  case isTrue hroom =>
    dsimp only at hlaunch
    split at hlaunch
    case isTrue => cases hlaunch
    case isFalse hmore =>
      cases hlaunch
      have hspan := h.span
      have hlt : s.queue.head + s.queue.slots.length < s.queue.count := by omega
      have hfresh := h.fresh hlt
      have hother : ∀ u, u ≠ s.queue.head + s.queue.slots.length →
          (Function.update s.queue.jobs (s.queue.head + s.queue.slots.length) (some Job.one)) u = s.queue.jobs u ∧
            ((s.queue.head + s.queue.slots.length) :: s.queue.asked).count u = s.queue.asked.count u :=
        fun u hu => ⟨Function.update_of_ne hu _ _, List.count_cons_of_ne (Ne.symm hu)⟩
      have hlength : (s.queue.slots ++ [Slot.fetching 1 true]).length = s.queue.slots.length + 1 :=
        List.length_append
      refine ⟨?_, ?_, ?_, ?_, ?_, ?_, ?_, ?_, h.errors, h.last, h.out_length, ?_⟩
      · show s.queue.head + (s.queue.slots ++ [Slot.fetching 1 true]).length ≤ s.queue.count
        omega
      · show (s.queue.slots ++ [Slot.fetching 1 true]).length ≤ s.queue.window
        omega
      · show s.queue.requests + 1 = total (s.queue.slots ++ [Slot.fetching 1 true])
        rw [total_append, h.requests]
        rfl
      · exact hroom.1
      · intro i slot hslot
        rcases Nat.lt_or_ge i s.queue.slots.length with hi | hi
        · have hold : s.queue.slots[i]? = some slot := (List.getElem?_append_left hi).symm.trans hslot
          obtain ⟨hjob, hasked⟩ := hother (s.queue.head + i) (by omega)
          exact (h.slots i slot hold).frame rfl id hjob hasked (List.Subset.refl _) id
        · -- the slot that was just added
          have hlast : i = s.queue.slots.length := by
            have hbound := (List.getElem?_eq_some_iff.mp hslot).1
            change i < (s.queue.slots ++ [Slot.fetching 1 true]).length at hbound
            omega
          subst hlast
          have hnew : slot = .fetching 1 true := (Option.some.inj (List.getElem?_concat_length.symm.trans hslot)).symm
          subst hnew
          refine ⟨rfl, Function.update_self _ _ _, ?_⟩
          show ((s.queue.head + s.queue.slots.length) :: s.queue.asked).count _ = 1
          rw [List.count_cons_self, (hfresh _ (Nat.le_refl _)).2]
      · intro u hu
        obtain ⟨hjob, hasked⟩ := hother u (by have hlt : u < s.queue.head := hu; omega)
        exact ⟨hjob.trans (h.handedOut u hu).1, hasked.trans_le (h.handedOut u hu).2⟩
      · intro u hu
        have hafter : s.queue.head + s.queue.slots.length + 1 ≤ u := by
          change s.queue.head + (s.queue.slots ++ [Slot.fetching 1 true]).length ≤ u at hu
          omega
        obtain ⟨hjob, hasked⟩ := hother u (by omega)
        exact ⟨.inl (hjob.trans (hfresh u (by omega)).1), hasked.trans_le ((hfresh u (by omega)).2.trans_le (by omega))⟩
      · intro _ u hu
        have hafter : s.queue.head + s.queue.slots.length + 1 ≤ u := by
          change s.queue.head + (s.queue.slots ++ [Slot.fetching 1 true]).length ≤ u at hu
          omega
        obtain ⟨hjob, hasked⟩ := hother u (by omega)
        exact ⟨hjob.trans (hfresh u (by omega)).1, hasked.trans (hfresh u (by omega)).2⟩
      · exact fun i item hitem => (h.out i item hitem).frame (List.Subset.refl _) fun hc hh => ⟨hc, hh⟩

theorem orderly_launchFor (fuel : Nat) (q : InOrder D E) (h : Orderly units { s with queue := q }) :
    Orderly units { s with queue := q.launchFor fuel } := by
  induction fuel generalizing q with
  | zero => exact h
  | succ fuel ih =>
    unfold InOrder.launchFor
    cases hone : q.launchOne with
    | none => exact h
    | some q' => exact ih q' (orderly_launchOne h hone)

/-- The next unit is requested a second time. -/
theorem orderly_hedge (h : Orderly units s) (hmay : s.queue.mayHedge = true) :
    Orderly units { s with queue := s.queue.hedge } := by
  unfold InOrder.mayHedge at hmay
  split at hmay
  case h_2 => cases hmay
  case h_1 requests slots hslots =>
    have hroom : s.queue.requests < s.queue.connections := of_decide_eq_true hmay
    have hhead : s.queue.slots[0]? = some (.fetching requests true) := by rw [hslots]; rfl
    obtain ⟨rfl, hjob, hasked⟩ := h.slots 0 _ hhead
    rw [Nat.add_zero] at hjob hasked
    have hhedge : s.queue.hedge = { s.queue with
        jobs := Function.update s.queue.jobs s.queue.head (some .sent), asked := s.queue.head :: s.queue.asked,
        slots := .fetching 2 false :: slots, requests := s.queue.requests + 1 } := by
      unfold InOrder.hedge
      rw [hslots]
      dsimp only
      rw [hjob]
    have hother : ∀ u, u ≠ s.queue.head →
        (Function.update s.queue.jobs s.queue.head (some Job.sent)) u = s.queue.jobs u ∧
          (s.queue.head :: s.queue.asked).count u = s.queue.asked.count u :=
      fun u hu => ⟨Function.update_of_ne hu _ _, List.count_cons_of_ne (Ne.symm hu)⟩
    have hlength : s.queue.slots.length = slots.length + 1 := by rw [hslots]; rfl
    have hspan := h.span
    have hwindow := h.window
    have htotal := h.requests
    rw [hslots] at htotal
    rw [hhedge]
    refine ⟨?_, ?_, ?_, hroom, ?_, ?_, ?_, ?_, h.errors, h.last, h.out_length, ?_⟩
    · show s.queue.head + (slots.length + 1) ≤ s.queue.count
      omega
    · show slots.length + 1 ≤ s.queue.window
      omega
    · show s.queue.requests + 1 = 2 + total slots
      have hone : total (Slot.fetching 1 true :: slots) = 1 + total slots := total_cons _ _
      omega
    · intro i slot hslot
      cases i with
      | zero =>
        cases hslot
        refine ⟨rfl, rfl, ⟨.sent, Function.update_self _ _ _, trivial⟩, ?_⟩
        show (s.queue.head :: s.queue.asked).count s.queue.head = 2
        rw [List.count_cons_self, hasked]
      | succ i =>
        have hold : s.queue.slots[i + 1]? = some slot := by rw [hslots]; exact hslot
        obtain ⟨hjob', hasked'⟩ := hother (s.queue.head + (i + 1)) (by omega)
        exact (h.slots (i + 1) slot hold).frame rfl id hjob' hasked' (List.Subset.refl _) id
    · intro u hu
      obtain ⟨hjob', hasked'⟩ := hother u (by have hlt : u < s.queue.head := hu; omega)
      exact ⟨hjob'.trans (h.handedOut u hu).1, hasked'.trans_le (h.handedOut u hu).2⟩
    · intro u hu
      change s.queue.head + (slots.length + 1) ≤ u at hu
      obtain ⟨hjob', hasked'⟩ := hother u (by omega)
      obtain ⟨hjob'', htwo⟩ := h.notStarted u (by omega)
      exact ⟨hjob''.imp hjob'.trans hjob'.trans, hasked'.trans_le htwo⟩
    · intro hmore u hu
      change s.queue.head + (slots.length + 1) < s.queue.count at hmore
      change s.queue.head + (slots.length + 1) ≤ u at hu
      obtain ⟨hjob', hasked'⟩ := hother u (by omega)
      obtain ⟨hnone, hzero⟩ := h.fresh (by omega) u (by omega)
      exact ⟨hjob'.trans hnone, hasked'.trans hzero⟩
    · exact fun i item hitem => (h.out i item hitem).frame (List.Subset.refl _) fun hc hh => ⟨hc, hh⟩

/-! ## Requests that end -/

/-- A job with two requests goes on with two. -/
theorem orderly_goesOn (h : Orderly units s) {unit : Nat} {job job' : Job E} (hjob : s.queue.jobs unit = some job)
    (hdoubled : job.Doubled) (hdoubled' : job'.Doubled) :
    Orderly units { s with queue := { s.queue with jobs := Function.update s.queue.jobs unit (some job') } } := by
  obtain ⟨i, requests, hedge, hslot, rfl⟩ : ∃ i requests hedge,
      s.queue.slots[i]? = some (.fetching requests hedge) ∧ unit = s.queue.head + i := by
    rcases h.job_cases hjob with hin | ⟨rfl, _⟩
    · exact hin
    · exact hdoubled.elim
  have hi := (List.getElem?_eq_some_iff.mp hslot).1
  have hother : ∀ u, u ≠ s.queue.head + i →
      (Function.update s.queue.jobs (s.queue.head + i) (some job')) u = s.queue.jobs u :=
    fun u hu => Function.update_of_ne hu _ _
  refine ⟨h.span, h.window, h.requests, h.connections, ?_, ?_, ?_, ?_, h.errors, h.last, h.out_length, ?_⟩
  · intro j slot hget
    rcases eq_or_ne j i with rfl | hne
    · obtain rfl : slot = .fetching requests hedge := Option.some.inj (hget.symm.trans hslot)
      have hok := h.slots j _ hslot
      cases hedge with
      | true =>
        rw [hok.2.1] at hjob
        cases hjob
        exact hdoubled.elim
      | false => exact ⟨hok.1, hok.2.1, ⟨job', Function.update_self _ _ _, hdoubled'⟩, hok.2.2.2⟩
    · exact (h.slots j slot hget).frame rfl id (hother _ (by omega)) rfl (List.Subset.refl _) id
  · intro u hu
    have hlt : u < s.queue.head := hu
    exact ⟨(hother u (by omega)).trans (h.handedOut u hu).1, (h.handedOut u hu).2⟩
  · intro u hu
    change s.queue.head + s.queue.slots.length ≤ u at hu
    have hsame := hother u (by omega)
    exact (h.notStarted u hu).imp (fun hnone => hnone.imp hsame.trans hsame.trans) id
  · intro hmore u hu
    change s.queue.head + s.queue.slots.length ≤ u at hu
    exact (h.fresh hmore u hu).imp (hother u (by omega)).trans id
  · exact fun j item hitem => (h.out j item hitem).frame (List.Subset.refl _) fun hc hh => ⟨hc, hh⟩

/-- A job without its unit's slot ends: nothing is left of it. -/
theorem orderly_endsGone (h : Orderly units s) {unit : Nat} (result : Except E D)
    (hfull : s.queue.head + s.queue.slots.length = s.queue.count) (hunit : s.queue.count ≤ unit) :
    Orderly units { s with
      queue := { s.queue with jobs := Function.update s.queue.jobs unit none }, ended := (unit, result) :: s.ended } := by
  have hother : ∀ u, u ≠ unit → (Function.update s.queue.jobs unit none) u = s.queue.jobs u :=
    fun u hu => Function.update_of_ne hu _ _
  have hsubset : s.ended ⊆ (unit, result) :: s.ended := List.subset_cons_self _ _
  refine ⟨h.span, h.window, h.requests, h.connections, ?_, ?_, ?_, ?_, ?_, ?_, h.out_length, ?_⟩
  · intro i slot hslot
    have hi : i < s.queue.slots.length := (List.getElem?_eq_some_iff.mp hslot).1
    exact (h.slots i slot hslot).frame rfl id (hother _ (by omega)) rfl hsubset id
  · intro u hu
    have hlt : u < s.queue.head := hu
    exact ⟨(hother u (by omega)).trans (h.handedOut u hu).1, (h.handedOut u hu).2⟩
  · intro u hu
    refine ⟨?_, (h.notStarted u hu).2⟩
    rcases eq_or_ne u unit with rfl | hne
    · exact .inl (Function.update_self _ _ _)
    · exact (h.notStarted u hu).1.imp (hother u hne).trans (hother u hne).trans
  · intro hmore
    exact absurd hmore (by show ¬ s.queue.head + s.queue.slots.length < s.queue.count; omega)
  · intro u e hmem
    rcases List.mem_cons.mp hmem with heq | hmem
    · cases heq
      show s.queue.count ≤ unit + 1
      omega
    · exact h.errors u e hmem
  · exact ⟨h.last.1, h.last.2.imp id fun ⟨u, e, hmem, hcount⟩ => ⟨u, e, hsubset hmem, hcount⟩⟩
  · exact fun i item hitem => (h.out i item hitem).frame hsubset fun hc hh => ⟨hc, hh⟩

/-- A unit arrives. -/
theorem orderly_endsOk (h : Orderly units s) {i requests : Nat} {hedge : Bool}
    (hslot : s.queue.slots[i]? = some (.fetching requests hedge)) (data : D) :
    Orderly units { s with
      queue := { s.queue with
        jobs := Function.update s.queue.jobs (s.queue.head + i) none,
        slots := s.queue.slots.set i (.done (.ok data)), requests := s.queue.requests - requests },
      ended := (s.queue.head + i, .ok data) :: s.ended } := by
  have hi := (List.getElem?_eq_some_iff.mp hslot).1
  have hother : ∀ u, u ≠ s.queue.head + i →
      (Function.update s.queue.jobs (s.queue.head + i) none) u = s.queue.jobs u :=
    fun u hu => Function.update_of_ne hu _ _
  have hlength : (s.queue.slots.set i (Slot.done (Except.ok data))).length = s.queue.slots.length :=
    List.length_set
  have htotal : total (s.queue.slots.set i (.done (.ok data))) + requests = total s.queue.slots + 0 :=
    total_set hslot
  have hsubset : s.ended ⊆ (s.queue.head + i, Except.ok data) :: s.ended := List.subset_cons_self _ _
  have hrequests := h.requests
  have hconnections := h.connections
  refine ⟨?_, ?_, ?_, ?_, ?_, ?_, ?_, ?_, ?_, ?_, h.out_length, ?_⟩
  · show s.queue.head + (s.queue.slots.set i _).length ≤ s.queue.count
    rw [hlength]
    exact h.span
  · show (s.queue.slots.set i _).length ≤ s.queue.window
    rw [hlength]
    exact h.window
  · show s.queue.requests - requests = total (s.queue.slots.set i _)
    omega
  · show s.queue.requests - requests ≤ s.queue.connections
    omega
  · intro j slot hget
    rcases eq_or_ne j i with rfl | hne
    · have hset : (s.queue.slots.set j (Slot.done (Except.ok data)))[j]? = some (.done (.ok data)) :=
        List.getElem?_set_self hi
      obtain rfl : slot = .done (.ok data) := Option.some.inj (hget.symm.trans hset)
      refine ⟨Function.update_self _ _ _, ?_, List.mem_cons_self, fun e he => by cases he⟩
      have hok := h.slots j _ hslot
      cases hedge with
      | true => exact hok.2.2.trans_le (by omega)
      | false => exact Nat.le_of_eq hok.2.2.2
    · have hold : s.queue.slots[j]? = some slot := (List.getElem?_set_ne (Ne.symm hne)).symm.trans hget
      exact (h.slots j slot hold).frame rfl id (hother _ (by omega)) rfl hsubset id
  · intro u hu
    have hlt : u < s.queue.head := hu
    exact ⟨(hother u (by omega)).trans (h.handedOut u hu).1, (h.handedOut u hu).2⟩
  · intro u hu
    change s.queue.head + (s.queue.slots.set i _).length ≤ u at hu
    rw [hlength] at hu
    have hsame := hother u (by omega)
    exact (h.notStarted u hu).imp (fun hnone => hnone.imp hsame.trans hsame.trans) id
  · intro hmore u hu
    change s.queue.head + (s.queue.slots.set i _).length < s.queue.count at hmore
    change s.queue.head + (s.queue.slots.set i _).length ≤ u at hu
    rw [hlength] at hmore hu
    exact (h.fresh hmore u hu).imp (hother u (by omega)).trans id
  · intro u e hmem
    rcases List.mem_cons.mp hmem with heq | hmem
    · cases heq
    · exact h.errors u e hmem
  · exact ⟨h.last.1, h.last.2.imp id fun ⟨u, e, hmem, hcount⟩ => ⟨u, e, hsubset hmem, hcount⟩⟩
  · exact fun j item hitem => (h.out j item hitem).frame hsubset fun hc hh => ⟨hc, hh⟩

/-- A unit fails: it becomes the last one, and those after it are dropped. -/
theorem orderly_endsError (h : Orderly units s) {i requests : Nat} {hedge : Bool}
    (hslot : s.queue.slots[i]? = some (.fetching requests hedge)) (e : E) :
    Orderly units { s with
      queue := { s.queue with
        count := s.queue.head + i + 1, slots := s.queue.slots.take i ++ [.done (.error e)],
        requests := total (s.queue.slots.take i),
        jobs := InOrder.dropJobs { s.queue with jobs := Function.update s.queue.jobs (s.queue.head + i) none }
          (s.queue.head + i) },
      ended := (s.queue.head + i, .error e) :: s.ended } := by
  have hi := (List.getElem?_eq_some_iff.mp hslot).1
  have htotal := total_eq_of_getElem? hslot
  have hspan := h.span
  have hrequests := h.requests
  have hconnections := h.connections
  have hlength : (s.queue.slots.take i ++ [Slot.done (Except.error e : Except E D)]).length = i + 1 := by
    rw [List.length_append, List.length_take, Nat.min_eq_left (Nat.le_of_lt hi)]
    rfl
  have hsubset : s.ended ⊆ (s.queue.head + i, Except.error e) :: s.ended := List.subset_cons_self _ _
  have hupdate : ∀ u, u ≠ s.queue.head + i →
      (Function.update s.queue.jobs (s.queue.head + i) none) u = s.queue.jobs u :=
    fun u hu => Function.update_of_ne hu _ _
  -- jobs of units before the one that failed, of itself, of slots that are dropped and of units not started
  have hbefore : ∀ u, u < s.queue.head + i →
      InOrder.dropJobs { s.queue with jobs := Function.update s.queue.jobs (s.queue.head + i) none }
        (s.queue.head + i) u = s.queue.jobs u :=
    fun u hu => (if_neg (by omega)).trans (hupdate u (by omega))
  have hself : InOrder.dropJobs { s.queue with jobs := Function.update s.queue.jobs (s.queue.head + i) none }
      (s.queue.head + i) (s.queue.head + i) = none :=
    (if_neg (by omega)).trans (Function.update_self _ _ _)
  have hdropped : ∀ u, s.queue.head + i < u → u < s.queue.head + s.queue.slots.length →
      InOrder.dropJobs { s.queue with jobs := Function.update s.queue.jobs (s.queue.head + i) none }
        (s.queue.head + i) u = (s.queue.jobs u).map Job.dropped :=
    fun u hu hin => (if_pos ⟨hu, hin⟩).trans (congrArg (Option.map Job.dropped) (hupdate u (by omega)))
  have hafter : ∀ u, s.queue.head + s.queue.slots.length ≤ u →
      InOrder.dropJobs { s.queue with jobs := Function.update s.queue.jobs (s.queue.head + i) none }
        (s.queue.head + i) u = s.queue.jobs u :=
    fun u hu => (if_neg (fun hin => absurd hin.2 (Nat.not_lt.mpr hu))).trans (hupdate u (by omega))
  have hlast : s.queue.head + i + 1 ≤ s.queue.count := by omega
  refine ⟨?_, ?_, ?_, ?_, ?_, ?_, ?_, ?_, ?_, ?_, h.out_length, ?_⟩
  · show s.queue.head + (s.queue.slots.take i ++ [Slot.done (Except.error e)]).length ≤ s.queue.head + i + 1
    omega
  · show (s.queue.slots.take i ++ [Slot.done (Except.error e)]).length ≤ s.queue.window
    have hwindow := h.window
    omega
  · show total (s.queue.slots.take i) = total (s.queue.slots.take i ++ [Slot.done (Except.error e)])
    rw [total_append]
    rfl
  · show total (s.queue.slots.take i) ≤ s.queue.connections
    omega
  · intro j slot hget
    have hj : j < i + 1 := hlength ▸ (List.getElem?_eq_some_iff.mp hget).1
    rcases Nat.lt_or_ge j i with hlt | hge
    · have htake : j < (s.queue.slots.take i).length := by rw [List.length_take]; omega
      have hold : s.queue.slots[j]? = some slot := by
        rw [← hget]
        show _ = (s.queue.slots.take i ++ [Slot.done (Except.error e)])[j]?
        rw [List.getElem?_append_left htake, List.getElem?_take_of_lt hlt]
      refine (h.slots j slot hold).frame rfl id (hbefore _ (by omega)) rfl hsubset fun hcount => ?_
      -- a unit that failed before is the last one, so none after it is still fetched
      omega
    · obtain rfl : j = i := by omega
      have hnew : slot = .done (.error e) := by
        have hconcat : (s.queue.slots.take j ++ [Slot.done (Except.error e)])[(s.queue.slots.take j).length]? =
            some (.done (.error e)) := List.getElem?_concat_length
        rw [List.length_take, Nat.min_eq_left (Nat.le_of_lt hi)] at hconcat
        exact (Option.some.inj (hconcat.symm.trans hget)).symm
      subst hnew
      refine ⟨hself, ?_, List.mem_cons_self, fun _ _ => rfl⟩
      have hok := h.slots j _ hslot
      cases hedge with
      | true => exact hok.2.2.trans_le (by omega)
      | false => exact Nat.le_of_eq hok.2.2.2
  · intro u hu
    have hlt : u < s.queue.head := hu
    exact ⟨(hbefore u (by omega)).trans (h.handedOut u hu).1, (h.handedOut u hu).2⟩
  · intro u hu
    change s.queue.head + (s.queue.slots.take i ++ [Slot.done (Except.error e)]).length ≤ u at hu
    show (InOrder.dropJobs _ _ u = none ∨ InOrder.dropJobs _ _ u = some .orphan) ∧ s.queue.asked.count u ≤ 2
    rcases Nat.lt_or_ge u (s.queue.head + s.queue.slots.length) with hin | hout
    · -- a slot that is dropped: only the first one could have been requested twice
      rw [hdropped u (by omega) hin]
      obtain ⟨j, rfl⟩ : ∃ j, u = s.queue.head + j := ⟨u - s.queue.head, by omega⟩
      have hj : j < s.queue.slots.length := by omega
      have hok := h.slots j _ (List.getElem?_eq_getElem hj)
      cases hget : s.queue.slots[j] with
      | fetching requests' hedge' =>
        rw [hget] at hok
        cases hedge' with
        | true =>
          rw [hok.2.1]
          exact ⟨.inr rfl, hok.2.2.trans_le (by omega)⟩
        | false =>
          have hzero : j = 0 := hok.1
          omega
      | done result =>
        rw [hget] at hok
        rw [hok.1]
        exact ⟨.inl rfl, hok.2.1⟩
    · rw [hafter u hout]
      exact h.notStarted u hout
  · intro hmore
    change s.queue.head + (s.queue.slots.take i ++ [Slot.done (Except.error e)]).length < s.queue.head + i + 1 at hmore
    omega
  · intro u e' hmem
    show s.queue.head + i + 1 ≤ u + 1
    rcases List.mem_cons.mp hmem with heq | hmem
    · cases heq
      exact Nat.le_refl _
    · have hcount := h.errors u e' hmem
      omega
  · refine ⟨?_, .inr ⟨_, e, List.mem_cons_self, rfl⟩⟩
    show s.queue.head + i + 1 ≤ units
    have hunits := h.last.1
    omega
  · intro j item hitem
    refine (h.out j item hitem).frame hsubset fun hc hh => ?_
    omega

/-- A job ends, whatever became of its unit; the count does not underflow. -/
theorem orderly_ends (h : Orderly units s) {unit : Nat} {job : Job E} (hjob : s.queue.jobs unit = some job)
    (result : Except E D) : ∃ s', s.ends unit result = some s' ∧ Orderly units s' := by
  let q : InOrder D E := { s.queue with jobs := Function.update s.queue.jobs unit none }
  have hends : s.ends unit result =
    (q.finish unit result).map fun queue => { s with queue := queue, ended := (unit, result) :: s.ended } := rfl
  rw [hends]
  rcases h.job_cases hjob with ⟨i, requests, hedge, hslot, rfl⟩ | ⟨_, hfull, hunit⟩
  · have hbelow : requests ≤ s.queue.requests := by
      have htotal := total_eq_of_getElem? hslot
      change total s.queue.slots = _ + requests + _ at htotal
      have hrequests := h.requests
      omega
    have hslot' : q.slots[i]? = some (.fetching requests hedge) := hslot
    cases result with
    | ok data =>
      rw [show q.finish (s.queue.head + i) (.ok data) = _ from InOrder.finish_ok hslot' hbelow data]
      exact ⟨_, rfl, orderly_endsOk h hslot data⟩
    | error e =>
      rw [show q.finish (s.queue.head + i) (.error e) = _ from InOrder.finish_error hslot' h.requests.symm e]
      exact ⟨_, rfl, orderly_endsError h hslot e⟩
  · have hgone : q.head + q.slots.length ≤ unit := hfull.trans_le hunit
    rw [InOrder.finish_gone hgone]
    exact ⟨_, rfl, orderly_endsGone h result hfull hunit⟩

/-! ## Handing out -/

theorem orderly_pop (h : Orderly units s) {item : Except E (Nat × D)} {q : InOrder D E}
    (hpop : s.queue.pop = some (item, q)) : Orderly units { s with queue := q, out := s.out ++ [item] } := by
  unfold InOrder.pop at hpop
  split at hpop
  case h_2 => cases hpop
  case h_1 result slots hslots =>
    cases hpop
    have hlength : s.queue.slots.length = slots.length + 1 := by rw [hslots]; rfl
    have hspan := h.span
    have hwindow := h.window
    have hrequests := h.requests
    rw [hslots] at hrequests
    have hhead : s.queue.slots[0]? = some (.done result) := by rw [hslots]; rfl
    obtain ⟨hjob, hasked, hended, herror⟩ := h.slots 0 _ hhead
    rw [Nat.add_zero] at hjob hasked hended herror
    refine ⟨?_, ?_, ?_, h.connections, ?_, ?_, ?_, ?_, h.errors, h.last, ?_, ?_⟩
    · show s.queue.head + 1 + slots.length ≤ s.queue.count
      omega
    · show slots.length ≤ s.queue.window
      omega
    · show s.queue.requests = total slots
      rw [hrequests, total_cons]
      exact Nat.zero_add _
    · intro i slot hslot
      have hold : s.queue.slots[i + 1]? = some slot := by rw [hslots]; exact hslot
      refine (h.slots (i + 1) slot hold).frame ?_ (fun hzero => by cases hzero) rfl rfl (List.Subset.refl _) id
      show s.queue.head + 1 + i = s.queue.head + (i + 1)
      omega
    · intro u hu
      rcases Nat.lt_or_ge u s.queue.head with hlt | hge
      · exact h.handedOut u hlt
      · obtain rfl : u = s.queue.head := by
          change u < s.queue.head + 1 at hu
          omega
        exact ⟨hjob, hasked⟩
    · intro u hu
      change s.queue.head + 1 + slots.length ≤ u at hu
      exact h.notStarted u (by omega)
    · intro hmore u hu
      change s.queue.head + 1 + slots.length < s.queue.count at hmore
      change s.queue.head + 1 + slots.length ≤ u at hu
      exact h.fresh (by omega) u (by omega)
    · show (s.out ++ [_]).length = s.queue.head + 1
      rw [List.length_append, h.out_length]
      rfl
    · intro i item hitem
      rcases Nat.lt_or_ge i s.out.length with hlt | hge
      · have hold : s.out[i]? = some item := (List.getElem?_append_left hlt).symm.trans hitem
        exact (h.out i item hold).frame (List.Subset.refl _) fun _ hh => by omega
      · have hi : i = s.out.length := by
          have hbound := (List.getElem?_eq_some_iff.mp hitem).1
          change i < (s.out ++ [_]).length at hbound
          rw [List.length_append] at hbound
          change i < s.out.length + 1 at hbound
          omega
        subst hi
        obtain rfl := Option.some.inj (List.getElem?_concat_length.symm.trans hitem)
        rw [h.out_length]
        cases result with
        | ok data => exact ⟨rfl, hended⟩
        | error e => exact ⟨hended, herror e rfl, rfl⟩

/-! ## Every run -/

theorem Job.first_doubled {job job' : Job E} {result : Except E D} (h : job.first result = some (.goesOn job')) :
    job.Doubled ∧ job'.Doubled := by
  unfold Job.first at h
  split at h <;> cases h
  exact ⟨trivial, trivial⟩

theorem Job.second_doubled {job job' : Job E} {result : Except E D} (h : job.second result = some (.goesOn job')) :
    job.Doubled ∧ job'.Doubled := by
  unfold Job.second at h
  split at h <;> cases h
  exact ⟨trivial, trivial⟩

theorem orderly_raced (h : Orderly units s) {unit : Nat} {job : Job E} (hjob : s.queue.jobs unit = some job)
    {raced : Raced D E} (hdoubled : ∀ job', raced = .goesOn job' → job.Doubled ∧ job'.Doubled)
    (hstep : s.raced unit raced = some s') : Orderly units s' := by
  cases raced with
  | ends result =>
    obtain ⟨t, hends, horderly⟩ := orderly_ends h hjob result
    obtain rfl : t = s' := Option.some.inj (hends.symm.trans hstep)
    exact horderly
  | goesOn job' =>
    cases hstep
    obtain ⟨hbefore, hafter⟩ := hdoubled job' rfl
    exact orderly_goesOn h hjob hbefore hafter

theorem orderly_step (h : Orderly units s) {event : Event D E} (hstep : s.step event = some s') :
    Orderly units s' := by
  cases event with
  | launch =>
    cases hstep
    exact orderly_launchFor _ _ h
  | hedge =>
    rw [State.step] at hstep
    split at hstep
    case isTrue hmay =>
      cases hstep
      exact orderly_hedge h hmay
    case isFalse => cases hstep
  | first unit result =>
    rw [State.step] at hstep
    cases hjob : s.queue.jobs unit with
    | none =>
      rw [hjob] at hstep
      cases hstep
    | some job =>
      rw [hjob] at hstep
      obtain ⟨raced, hfirst, hraced⟩ := Option.bind_eq_some_iff.mp hstep
      exact orderly_raced h hjob (fun job' heq => Job.first_doubled (heq ▸ hfirst)) hraced
  | second unit result =>
    rw [State.step] at hstep
    cases hjob : s.queue.jobs unit with
    | none =>
      rw [hjob] at hstep
      cases hstep
    | some job =>
      rw [hjob] at hstep
      obtain ⟨raced, hsecond, hraced⟩ := Option.bind_eq_some_iff.mp hstep
      exact orderly_raced h hjob (fun job' heq => Job.second_doubled (heq ▸ hsecond)) hraced
  | receive unit =>
    rw [State.step] at hstep
    split at hstep
    case h_1 hjob =>
      cases hstep
      exact orderly_goesOn h hjob trivial trivial
    case h_2 => cases hstep
  | cancel unit error =>
    rw [State.step] at hstep
    split at hstep
    case h_1 hjob =>
      obtain ⟨t, hends, horderly⟩ := orderly_ends h hjob (.error error)
      obtain rfl : t = s' := Option.some.inj (hends.symm.trans hstep)
      exact horderly
    case h_2 => cases hstep
  | pop =>
    rw [State.step] at hstep
    split at hstep
    case h_1 hpop =>
      cases hstep
      exact orderly_pop h hpop
    case h_2 => cases hstep

theorem orderly_reachable (units connections window : Nat) :
    (downloads D E units connections window).toTSys.Invariant (Orderly units) :=
  Weft.TSys.Inductive.invariant
    { init := fun _ hinit => hinit ▸ orderly_start units connections window
      step := fun _ _ h ⟨_, hstep⟩ => orderly_step h hstep }

/-! ## Each unit ends once -/

structure Once (s : State D E) : Prop where
  begun : ∀ u job, s.queue.jobs u = some job → 0 < s.queue.asked.count u
  ended : ∀ u result, (u, result) ∈ s.ended →
    0 < s.queue.asked.count u ∧ s.queue.jobs u = none ∧ ∀ result', (u, result') ∈ s.ended → result' = result

/-- A step that ends no job and changes only jobs that had not ended. -/
theorem Once.frame {q : InOrder D E} {out : List (Except E (Nat × D))} (h : Once s)
    (hasked : ∀ u, s.queue.asked.count u ≤ q.asked.count u)
    (hjobs : ∀ u, q.jobs u = s.queue.jobs u ∨ 0 < q.asked.count u ∧ ∀ result, (u, result) ∉ s.ended) :
    Once { s with queue := q, out := out } where
  begun := by
    intro u job hjob
    rcases hjobs u with hsame | ⟨hpos, _⟩
    · exact Nat.lt_of_lt_of_le (h.begun u job (hsame ▸ hjob)) (hasked u)
    · exact hpos
  ended := by
    intro u result hmem
    obtain ⟨hpos, hnone, honce⟩ := h.ended u result hmem
    refine ⟨Nat.lt_of_lt_of_le hpos (hasked u), ?_, honce⟩
    rcases hjobs u with hsame | ⟨_, hnew⟩
    · exact hsame.trans hnone
    · exact absurd hmem (hnew result)

theorem Once.not_ended (h : Once s) {u : Nat} {job : Job E} (hjob : s.queue.jobs u = some job) (result : Except E D) :
    (u, result) ∉ s.ended := by
  intro hmem
  rw [(h.ended u result hmem).2.1] at hjob
  cases hjob

theorem once_launchOne (horderly : Orderly units s) (h : Once s) {q : InOrder D E}
    (hlaunch : s.queue.launchOne = some q) : Once { s with queue := q } := by
  unfold InOrder.launchOne at hlaunch
  split at hlaunch
  case isFalse => cases hlaunch
  case isTrue =>
    dsimp only at hlaunch
    split at hlaunch
    case isTrue => cases hlaunch
    case isFalse hmore =>
      cases hlaunch
      have hspan := horderly.span
      have hfresh := (horderly.fresh (by omega) _ (Nat.le_refl _)).2
      refine h.frame (fun u => List.count_le_count_cons) fun u => ?_
      rcases eq_or_ne u (s.queue.head + s.queue.slots.length) with rfl | hne
      · refine .inr ⟨List.count_pos_iff.mpr List.mem_cons_self, fun result hmem => ?_⟩
        have hpos := (h.ended _ result hmem).1
        omega
      · exact .inl (Function.update_of_ne hne _ _)

theorem once_launchFor (fuel : Nat) (q : InOrder D E) (horderly : Orderly units { s with queue := q })
    (h : Once { s with queue := q }) : Once { s with queue := q.launchFor fuel } := by
  induction fuel generalizing q with
  | zero => exact h
  | succ fuel ih =>
    unfold InOrder.launchFor
    cases hone : q.launchOne with
    | none => exact h
    | some q' => exact ih q' (orderly_launchOne horderly hone) (once_launchOne horderly h hone)

theorem once_hedge (horderly : Orderly units s) (h : Once s) (hmay : s.queue.mayHedge = true) :
    Once { s with queue := s.queue.hedge } := by
  unfold InOrder.mayHedge at hmay
  split at hmay
  case h_2 => cases hmay
  case h_1 requests slots hslots =>
    have hhead : s.queue.slots[0]? = some (.fetching requests true) := by rw [hslots]; rfl
    have hjob : s.queue.jobs s.queue.head = some .one := (horderly.slots 0 _ hhead).2.1
    unfold InOrder.hedge
    rw [hslots]
    dsimp only
    rw [hjob]
    refine h.frame (fun u => List.count_le_count_cons) fun u => ?_
    rcases eq_or_ne u s.queue.head with rfl | hne
    · exact .inr ⟨List.count_pos_iff.mpr List.mem_cons_self, h.not_ended hjob⟩
    · exact .inl (Function.update_of_ne hne _ _)

theorem once_goesOn (h : Once s) {unit : Nat} {job : Job E} (hjob : s.queue.jobs unit = some job) (job' : Job E) :
    Once { s with queue := { s.queue with jobs := Function.update s.queue.jobs unit (some job') } } := by
  refine h.frame (fun u => Nat.le_refl _) fun u => ?_
  rcases eq_or_ne u unit with rfl | hne
  · exact .inr ⟨h.begun u job hjob, h.not_ended hjob⟩
  · exact .inl (Function.update_of_ne hne _ _)

/-- Ending a unit starts and ends no other job. -/
theorem finish_jobs {q q' : InOrder D E} {unit : Nat} {result : Except E D} (h : q.finish unit result = some q') :
    q'.asked = q.asked ∧ ∀ u, q'.jobs u = none ↔ q.jobs u = none := by
  unfold InOrder.finish at h
  split at h
  case isFalse =>
    cases h
    exact ⟨rfl, fun _ => .rfl⟩
  case isTrue =>
    split at h
    case h_2 =>
      cases h
      exact ⟨rfl, fun _ => .rfl⟩
    case h_1 =>
      split at h
      case h_1 => cases h
      case h_2 =>
        split at h
        case h_2 =>
          cases h
          exact ⟨rfl, fun _ => .rfl⟩
        case h_1 =>
          split at h
          case h_1 => cases h
          case h_2 =>
            cases h
            refine ⟨rfl, fun u => ?_⟩
            show q.dropJobs unit u = none ↔ q.jobs u = none
            unfold InOrder.dropJobs
            split
            · exact Option.map_eq_none_iff
            · exact .rfl

theorem once_ends (h : Once s) {unit : Nat} {job : Job E} (hjob : s.queue.jobs unit = some job)
    {result : Except E D} (hends : s.ends unit result = some s') : Once s' := by
  obtain ⟨q, hfinish, rfl⟩ := Option.map_eq_some_iff.mp hends
  obtain ⟨hasked, hjobs⟩ := finish_jobs hfinish
  have hbefore : ∀ u, (Function.update s.queue.jobs unit none) u = none ↔ u = unit ∨ s.queue.jobs u = none := by
    intro u
    rcases eq_or_ne u unit with rfl | hne
    · rw [Function.update_self]
      exact iff_of_true rfl (.inl rfl)
    · rw [Function.update_of_ne hne]
      exact ⟨.inr, fun hor => hor.resolve_left hne⟩
  have hnone : ∀ u, q.jobs u = none ↔ u = unit ∨ s.queue.jobs u = none := fun u => (hjobs u).trans (hbefore u)
  refine ⟨fun u job' hjob' => ?_, fun u result' hmem => ?_⟩
  · show 0 < q.asked.count u
    rw [hasked]
    cases hold : s.queue.jobs u with
    | none =>
      rw [show q.jobs u = none from (hnone u).mpr (.inr hold)] at hjob'
      cases hjob'
    | some job'' => exact h.begun u job'' hold
  · show 0 < q.asked.count u ∧ q.jobs u = none ∧ _
    rw [hasked]
    rcases List.mem_cons.mp hmem with heq | hmem
    · cases heq
      refine ⟨h.begun unit job hjob, (hnone unit).mpr (.inl rfl), fun result' hmem => ?_⟩
      rcases List.mem_cons.mp hmem with heq | hmem
      · cases heq
        rfl
      · exact absurd hmem (h.not_ended hjob result')
    · obtain ⟨hpos, hended, honce⟩ := h.ended u result' hmem
      refine ⟨hpos, (hnone u).mpr (.inr hended), fun result'' hmem' => ?_⟩
      rcases List.mem_cons.mp hmem' with heq | hmem'
      · cases heq
        exact absurd hmem (h.not_ended hjob result')
      · exact honce result'' hmem'

theorem once_raced (h : Once s) {unit : Nat} {job : Job E} (hjob : s.queue.jobs unit = some job) {raced : Raced D E}
    (hstep : s.raced unit raced = some s') : Once s' := by
  cases raced with
  | ends result => exact once_ends h hjob hstep
  | goesOn job' =>
    cases hstep
    exact once_goesOn h hjob job'

theorem once_step (horderly : Orderly units s) (h : Once s) {event : Event D E} (hstep : s.step event = some s') :
    Once s' := by
  cases event with
  | launch =>
    cases hstep
    exact once_launchFor _ _ horderly h
  | hedge =>
    rw [State.step] at hstep
    split at hstep
    case isTrue hmay =>
      cases hstep
      exact once_hedge horderly h hmay
    case isFalse => cases hstep
  | first unit result =>
    rw [State.step] at hstep
    cases hjob : s.queue.jobs unit with
    | none =>
      rw [hjob] at hstep
      cases hstep
    | some job =>
      rw [hjob] at hstep
      obtain ⟨_, _, hraced⟩ := Option.bind_eq_some_iff.mp hstep
      exact once_raced h hjob hraced
  | second unit result =>
    rw [State.step] at hstep
    cases hjob : s.queue.jobs unit with
    | none =>
      rw [hjob] at hstep
      cases hstep
    | some job =>
      rw [hjob] at hstep
      obtain ⟨_, _, hraced⟩ := Option.bind_eq_some_iff.mp hstep
      exact once_raced h hjob hraced
  | receive unit =>
    rw [State.step] at hstep
    split at hstep
    case h_1 hjob =>
      cases hstep
      exact once_goesOn h hjob .both
    case h_2 => cases hstep
  | cancel unit error =>
    rw [State.step] at hstep
    split at hstep
    case h_1 hjob => exact once_ends h hjob hstep
    case h_2 => cases hstep
  | pop =>
    rw [State.step] at hstep
    split at hstep
    case h_1 item q hpop =>
      cases hstep
      unfold InOrder.pop at hpop
      split at hpop
      case h_1 =>
        cases hpop
        exact h.frame (fun u => Nat.le_refl _) fun u => .inl rfl
      case h_2 => cases hpop
    case h_2 => cases hstep

theorem once_reachable (units connections window : Nat) :
    (downloads D E units connections window).toTSys.Invariant Once :=
  Weft.TSys.Inductive.relative (orderly_reachable units connections window)
    (by
      rintro s rfl
      exact ⟨fun u job hjob => (by cases hjob), fun u result hmem => (by cases hmem)⟩)
    fun _ _ horderly _ h ⟨_, hstep⟩ => once_step horderly h hstep

/-! ## What stays as it was set up -/

/-- The limits of a download, and that it only asks for its units. -/
structure Limits (units connections window : Nat) (q : InOrder D E) : Prop where
  connections : q.connections = connections
  window : q.window = window
  asked : ∀ u ∈ q.asked, u < units

variable {connections window : Nat}

theorem limits_launchFor (fuel : Nat) (q : InOrder D E) (horderly : Orderly units { s with queue := q })
    (h : Limits units connections window q) : Limits units connections window (q.launchFor fuel) := by
  induction fuel generalizing q with
  | zero => exact h
  | succ fuel ih =>
    unfold InOrder.launchFor
    cases hone : q.launchOne with
    | none => exact h
    | some q' =>
      refine ih q' (orderly_launchOne horderly hone) ?_
      unfold InOrder.launchOne at hone
      split at hone
      case isFalse => cases hone
      case isTrue =>
        dsimp only at hone
        split at hone
        case isTrue => cases hone
        case isFalse hmore =>
          cases hone
          have hspan : q.head + q.slots.length ≤ q.count := horderly.span
          have hunits : q.count ≤ units := horderly.last.1
          refine ⟨h.connections, h.window, fun u hu => ?_⟩
          rcases List.mem_cons.mp hu with rfl | hu
          · omega
          · exact h.asked u hu

theorem limits_hedge (horderly : Orderly units s) (h : Limits units connections window s.queue)
    (hmay : s.queue.mayHedge = true) : Limits units connections window s.queue.hedge := by
  unfold InOrder.mayHedge at hmay
  split at hmay
  case h_2 => cases hmay
  case h_1 requests slots hslots =>
    have hhead : s.queue.slots[0]? = some (.fetching requests true) := by rw [hslots]; rfl
    have hjob : s.queue.jobs s.queue.head = some .one := (horderly.slots 0 _ hhead).2.1
    have hlength : s.queue.slots.length = slots.length + 1 := by rw [hslots]; rfl
    have hspan := horderly.span
    have hunits := horderly.last.1
    unfold InOrder.hedge
    rw [hslots]
    dsimp only
    rw [hjob]
    refine ⟨h.connections, h.window, fun u hu => ?_⟩
    rcases List.mem_cons.mp hu with rfl | hu
    · omega
    · exact h.asked u hu

theorem finish_limits {q q' : InOrder D E} {unit : Nat} {result : Except E D} (h : q.finish unit result = some q') :
    q'.connections = q.connections ∧ q'.window = q.window := by
  unfold InOrder.finish at h
  split at h
  case isFalse =>
    cases h
    exact ⟨rfl, rfl⟩
  case isTrue =>
    split at h
    case h_2 =>
      cases h
      exact ⟨rfl, rfl⟩
    case h_1 =>
      split at h
      case h_1 => cases h
      case h_2 =>
        split at h
        case h_2 =>
          cases h
          exact ⟨rfl, rfl⟩
        case h_1 =>
          split at h
          case h_1 => cases h
          case h_2 =>
            cases h
            exact ⟨rfl, rfl⟩

theorem limits_ends (h : Limits units connections window s.queue) {unit : Nat} {result : Except E D}
    (hends : s.ends unit result = some s') : Limits units connections window s'.queue := by
  obtain ⟨q, hfinish, rfl⟩ := Option.map_eq_some_iff.mp hends
  obtain ⟨hconnections, hwindow⟩ := finish_limits hfinish
  refine ⟨hconnections.trans h.connections, hwindow.trans h.window, ?_⟩
  show ∀ u ∈ q.asked, u < units
  rw [(finish_jobs hfinish).1]
  exact h.asked

theorem limits_raced (h : Limits units connections window s.queue) {unit : Nat} {raced : Raced D E}
    (hstep : s.raced unit raced = some s') : Limits units connections window s'.queue := by
  cases raced with
  | ends result => exact limits_ends h hstep
  | goesOn job' =>
    cases hstep
    exact ⟨h.connections, h.window, h.asked⟩

theorem limits_step (horderly : Orderly units s) (h : Limits units connections window s.queue) {event : Event D E}
    (hstep : s.step event = some s') : Limits units connections window s'.queue := by
  cases event with
  | launch =>
    cases hstep
    exact limits_launchFor _ _ horderly h
  | hedge =>
    rw [State.step] at hstep
    split at hstep
    case isTrue hmay =>
      cases hstep
      exact limits_hedge horderly h hmay
    case isFalse => cases hstep
  | first unit result | second unit result =>
    rw [State.step] at hstep
    split at hstep
    case h_1 =>
      obtain ⟨_, _, hraced⟩ := Option.bind_eq_some_iff.mp hstep
      exact limits_raced h hraced
    case h_2 => cases hstep
  | receive unit =>
    rw [State.step] at hstep
    split at hstep
    case h_1 =>
      cases hstep
      exact ⟨h.connections, h.window, h.asked⟩
    case h_2 => cases hstep
  | cancel unit error =>
    rw [State.step] at hstep
    split at hstep
    case h_1 => exact limits_ends h hstep
    case h_2 => cases hstep
  | pop =>
    rw [State.step] at hstep
    split at hstep
    case h_1 item q hpop =>
      cases hstep
      unfold InOrder.pop at hpop
      split at hpop
      case h_1 =>
        cases hpop
        exact ⟨h.connections, h.window, h.asked⟩
      case h_2 => cases hpop
    case h_2 => cases hstep

theorem limits_reachable (units connections window : Nat) :
    (downloads D E units connections window).toTSys.Invariant fun s => Limits units connections window s.queue :=
  Weft.TSys.Inductive.relative (orderly_reachable units connections window)
    (by
      rintro s rfl
      exact ⟨rfl, rfl, fun u hu => by cases hu⟩)
    fun _ _ horderly _ h ⟨_, hstep⟩ => limits_step horderly h hstep

/-! ## The download -/

theorem Orderly.out_cases (h : Orderly units s) {i : Nat} {item : Except E (Nat × D)} (hitem : s.out[i]? = some item) :
    (∃ data, item = .ok (i, data) ∧ (i, .ok data) ∈ s.ended) ∨
      ∃ e, item = .error e ∧ (i, .error e) ∈ s.ended ∧ s.out.length = i + 1 ∧ s.queue.isDone = true := by
  have hok := h.out i item hitem
  cases item with
  | ok pair =>
    obtain ⟨unit, data⟩ := pair
    obtain ⟨rfl, hended⟩ := hok
    exact .inl ⟨data, rfl, hended⟩
  | error e =>
    obtain ⟨hended, hcount, hhead⟩ := hok
    refine .inr ⟨e, rfl, hended, h.out_length.trans hhead, ?_⟩
    show (s.queue.head == s.queue.count) = true
    rw [hhead, hcount]
    exact beq_self_eq_true _

theorem Orderly.asked_le (h : Orderly units s) (u : Nat) : s.queue.asked.count u ≤ 2 := by
  rcases Nat.lt_or_ge u s.queue.head with hbefore | hhead
  · exact (h.handedOut u hbefore).2
  rcases Nat.lt_or_ge u (s.queue.head + s.queue.slots.length) with hin | hafter
  · obtain ⟨i, rfl⟩ : ∃ i, u = s.queue.head + i := ⟨u - s.queue.head, by omega⟩
    have hi : i < s.queue.slots.length := by omega
    have hok := h.slots i _ (List.getElem?_eq_getElem hi)
    cases hget : s.queue.slots[i] with
    | fetching requests hedge =>
      rw [hget] at hok
      cases hedge with
      | true => exact hok.2.2.trans_le (by omega)
      | false => exact Nat.le_of_eq hok.2.2.2
    | done result =>
      rw [hget] at hok
      exact hok.2.1
  · exact (h.notStarted u hafter).2

/-- Once it is done, all units are out, or those before the first that failed
and its error. -/
theorem done_out (h : Orderly units s) (honce : Once s) (hlimits : Limits units connections window s.queue)
    (hdone : s.queue.isDone = true) :
    s.queue.pop = none ∧
      ((∀ u e, (u, .error e) ∉ s.ended) ∧ s.out.length = units ∨
        ∃ u e, (∀ v e', (v, .error e') ∈ s.ended → u ≤ v) ∧ s.out.length = u + 1 ∧ s.out[u]? = some (.error e)) := by
  have hhead : s.queue.head = s.queue.count := beq_iff_eq.mp hdone
  have hspan := h.span
  have hslots : s.queue.slots = [] := List.eq_nil_of_length_eq_zero (by omega)
  refine ⟨?_, ?_⟩
  · unfold InOrder.pop
    rw [hslots]
  by_cases hfailed : ∃ u e, (u, Except.error e) ∈ s.ended
  · -- some unit failed: the last one is the first that did
    obtain ⟨u, e, hmem, hcount⟩ : ∃ u e, (u, Except.error e) ∈ s.ended ∧ s.queue.count = u + 1 := by
      rcases h.last.2 with hunits | hlast
      · obtain ⟨u, e, hmem⟩ := hfailed
        have hbound := hlimits.asked u (List.count_pos_iff.mp (honce.ended u _ hmem).1)
        have hle := h.errors u e hmem
        exact ⟨u, e, hmem, by omega⟩
      · exact hlast
    have hlength : s.out.length = u + 1 := by rw [h.out_length, hhead, hcount]
    have hitem : s.out[u]? = some s.out[u] := List.getElem?_eq_getElem (by omega)
    refine .inr ⟨u, e, fun v e' hmem' => ?_, hlength, ?_⟩
    · have hle := h.errors v e' hmem'
      omega
    · rcases h.out_cases hitem with ⟨data, _, hok⟩ | ⟨e', heq, herror, _⟩
      · exact absurd ((honce.ended u _ hmem).2.2 _ hok) (by intro heq; cases heq)
      · cases (honce.ended u _ hmem).2.2 _ herror
        rw [hitem, heq]
  · refine .inl ⟨fun u e hmem => hfailed ⟨u, e, hmem⟩, ?_⟩
    rw [h.out_length, hhead]
    exact h.last.2.resolve_right fun ⟨u, e, hmem, _⟩ => hfailed ⟨u, e, hmem⟩

/-- Until it is done, the next unit has arrived or is on its way, or one more
can be started. -/
theorem not_stuck (h : Orderly units s) (hlimits : Limits units connections window s.queue)
    (hconnections : 1 ≤ connections) (hwindow : 1 ≤ window) (hmore : s.queue.isDone = false) :
    s.queue.headReady = true ∨ (∃ job, s.queue.jobs s.queue.head = some job) ∨ ∃ q, s.queue.launchOne = some q := by
  cases hslots : s.queue.slots with
  | nil =>
    have hne : s.queue.head ≠ s.queue.count := fun heq => by
      rw [InOrder.isDone, heq, beq_self_eq_true] at hmore
      cases hmore
    have hrequests := h.requests
    rw [hslots, total_nil] at hrequests
    have hroom : s.queue.requests < s.queue.connections ∧ s.queue.slots.length < s.queue.window := by
      rw [hslots, hlimits.connections, hlimits.window]
      exact ⟨by omega, hwindow⟩
    refine .inr (.inr ?_)
    unfold InOrder.launchOne
    rw [if_pos hroom, hslots]
    exact ⟨_, if_neg hne⟩
  | cons slot slots =>
    have hok := h.slots 0 slot (by rw [hslots]; rfl)
    cases slot with
    | fetching requests hedge =>
      refine .inr (.inl ?_)
      cases hedge with
      | true => exact ⟨_, hok.2.1⟩
      | false =>
        obtain ⟨job, hjob, _⟩ := hok.2.2.1
        exact ⟨job, hjob⟩
    | done result =>
      refine .inl ?_
      unfold InOrder.headReady
      rw [hslots]

/-- Units come out in order, each once, up to the first that fails and its
error; the requests are counted right and stay within the connections, the
slots within the window, and no unit is asked for a third time; and until it
is done the download goes on. -/
theorem in_order (hconnections : 1 ≤ connections) (hwindow : 1 ≤ window)
    (hreach : (downloads D E units connections window).toTSys.Reachable s) :
    (∀ i item, s.out[i]? = some item →
      (∃ data, item = .ok (i, data) ∧ (i, .ok data) ∈ s.ended) ∨
        ∃ e, item = .error e ∧ (i, .error e) ∈ s.ended ∧ s.out.length = i + 1 ∧ s.queue.isDone = true) ∧
    (s.queue.isDone = true → s.queue.pop = none ∧
      ((∀ u e, (u, .error e) ∉ s.ended) ∧ s.out.length = units ∨
        ∃ u e, (∀ v e', (v, .error e') ∈ s.ended → u ≤ v) ∧ s.out.length = u + 1 ∧ s.out[u]? = some (.error e))) ∧
    (s.queue.requests = total s.queue.slots ∧ s.queue.requests ≤ connections ∧ s.queue.slots.length ≤ window ∧
      ∀ u, s.queue.asked.count u ≤ 2) ∧
    (∀ unit job result, s.queue.jobs unit = some job → ∃ s', s.ends unit result = some s') ∧
    (s.queue.isDone = false →
      s.queue.headReady = true ∨ (∃ job, s.queue.jobs s.queue.head = some job) ∨ ∃ q, s.queue.launchOne = some q) := by
  have horderly := orderly_reachable units connections window s hreach
  have honce := once_reachable units connections window s hreach
  have hlimits := limits_reachable units connections window s hreach
  refine ⟨fun i item => horderly.out_cases, done_out horderly honce hlimits, ⟨horderly.requests, ?_, ?_, ?_⟩, ?_, ?_⟩
  · exact hlimits.connections ▸ horderly.connections
  · exact hlimits.window ▸ horderly.window
  · exact horderly.asked_le
  · intro unit job result hjob
    obtain ⟨s', hends, _⟩ := orderly_ends horderly hjob result
    exact ⟨s', hends⟩
  · exact not_stuck horderly hlimits hconnections hwindow

/-- The first of two units comes on its second request, then the other fails. -/
def twoUnits : List (Event Nat Unit) :=
  [.launch, .hedge, .receive 0, .second 0 (.ok 7), .pop, .first 1 (.error ()), .pop]

theorem in_order_two : ∃ s, (downloads Nat Unit 2 3 2).run ⟨.new 2 3 2, [], []⟩ twoUnits = some s ∧
    s.out.length = 2 ∧ s.queue.requests = total s.queue.slots ∧ ∀ i item, s.out[i]? = some item →
      (∃ data, item = .ok (i, data) ∧ (i, .ok data) ∈ s.ended) ∨
        ∃ e, item = .error e ∧ (i, .error e) ∈ s.ended ∧ s.out.length = i + 1 ∧ s.queue.isDone = true := by
  obtain ⟨s, hrun, hout⟩ : ∃ s, (downloads Nat Unit 2 3 2).run ⟨.new 2 3 2, [], []⟩ twoUnits = some s ∧
    s.out.length = 2 := ⟨_, rfl, rfl⟩
  have horder := in_order (Nat.le_add_left 1 2) (Nat.le_add_left 1 1) (Weft.Machine.reachable_run (.init rfl) hrun)
  exact ⟨s, hrun, hout, horder.2.2.1.1, horder.1⟩

end Hls

end Hyperfetch
