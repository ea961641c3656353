import Mathlib.Data.List.Basic

/-!
# Trees unfolded from the front

A list of trees is unfolded by putting its first inner node's children in the node's place.
That keeps the leaves and their order (`leavesAll_unfold`) and leaves one inner node less
(`nodesAll_unfold`), so as many turns as there are inner nodes leave the leaves alone
(`eq_leaves`).
-/

namespace Weft

inductive Rose (α : Type*)
  | leaf (a : α)
  | node (a : α) (children : List (Rose α))

variable {α : Type*}

namespace Rose

def label : Rose α → α
  | leaf a => a
  | node a _ => a

mutual

def leaves : Rose α → List α
  | leaf a => [a]
  | node _ children => leavesAll children

/-- The leaves of all, in order. -/
def leavesAll : List (Rose α) → List α
  | [] => []
  | t :: ts => t.leaves ++ leavesAll ts

end

mutual

/-- How many inner nodes there are. -/
def nodes : Rose α → Nat
  | leaf _ => 0
  | node _ children => nodesAll children + 1

def nodesAll : List (Rose α) → Nat
  | [] => 0
  | t :: ts => t.nodes + nodesAll ts

end

/-- The first inner node's children in its place. -/
def unfold : List (Rose α) → List (Rose α)
  | [] => []
  | leaf a :: ts => leaf a :: unfold ts
  | node _ children :: ts => children ++ ts

theorem leavesAll_append (ts us : List (Rose α)) : leavesAll (ts ++ us) = leavesAll ts ++ leavesAll us := by
  induction ts with
  | nil => rfl
  | cons t ts ih => rw [List.cons_append, leavesAll, leavesAll, ih, List.append_assoc]

theorem nodesAll_append (ts us : List (Rose α)) : nodesAll (ts ++ us) = nodesAll ts + nodesAll us := by
  induction ts with
  | nil => exact (Nat.zero_add _).symm
  | cons t ts ih => rw [List.cons_append, nodesAll, nodesAll, ih, Nat.add_assoc]

theorem leavesAll_unfold (ts : List (Rose α)) : leavesAll (unfold ts) = leavesAll ts := by
  induction ts with
  | nil => rfl
  | cons t ts ih =>
    cases t with
    | leaf a => rw [unfold, leavesAll, leavesAll, ih]
    | node a children => rw [unfold, leavesAll_append, leavesAll, leaves]

theorem nodesAll_unfold {ts : List (Rose α)} (h : 0 < nodesAll ts) : nodesAll (unfold ts) + 1 = nodesAll ts := by
  induction ts with
  | nil => exact absurd h (Nat.lt_irrefl 0)
  | cons t ts ih =>
    cases t with
    | leaf a =>
      rw [nodesAll, nodes, Nat.zero_add] at h
      rw [unfold, nodesAll, nodesAll, nodes, Nat.zero_add, Nat.zero_add]
      exact ih h
    | node a children =>
      rw [unfold, nodesAll_append, nodesAll, nodes]
      omega

/-- Without an inner node there are but leaves. -/
theorem eq_leaves {ts : List (Rose α)} (h : nodesAll ts = 0) : ts = (leavesAll ts).map leaf := by
  induction ts with
  | nil => rfl
  | cons t ts ih =>
    cases t with
    | leaf a =>
      rw [nodesAll, nodes, Nat.zero_add] at h
      rw [leavesAll, leaves, List.singleton_append, List.map_cons, ← ih h]
    | node a children =>
      rw [nodesAll, nodes] at h
      omega

/-- The first inner node, and what is before and behind it. -/
theorem exists_node {ts : List (Rose α)} (h : 0 < nodesAll ts) :
    ∃ (front : List α) (a : α) (children back : List (Rose α)), ts = front.map leaf ++ node a children :: back ∧
      unfold ts = front.map leaf ++ children ++ back := by
  induction ts with
  | nil => exact absurd h (Nat.lt_irrefl 0)
  | cons t ts ih =>
    cases t with
    | leaf a =>
      rw [nodesAll, nodes, Nat.zero_add] at h
      obtain ⟨front, b, children, back, hts, hunfold⟩ := ih h
      refine ⟨a :: front, b, children, back, ?_, ?_⟩
      · rw [hts]
        rfl
      · rw [unfold, hunfold]
        rfl
    | node a children => exact ⟨[], a, children, ts, rfl, rfl⟩

/-! ## What holds of leaves and inner nodes -/

mutual

/-- So it is of each leaf, and of each inner node and its children. -/
def Each (q : α → Prop) (p : α → List (Rose α) → Prop) : Rose α → Prop
  | leaf a => q a
  | node a children => p a children ∧ EachAll q p children

def EachAll (q : α → Prop) (p : α → List (Rose α) → Prop) : List (Rose α) → Prop
  | [] => True
  | t :: ts => t.Each q p ∧ EachAll q p ts

end

section

variable {q : α → Prop} {p : α → List (Rose α) → Prop}

theorem eachAll_append (ts us : List (Rose α)) : EachAll q p (ts ++ us) ↔ EachAll q p ts ∧ EachAll q p us := by
  induction ts with
  | nil => exact (and_iff_right trivial).symm
  | cons t ts ih => rw [List.cons_append, EachAll, EachAll, ih, and_assoc]

theorem eachAll_unfold {ts : List (Rose α)} (h : EachAll q p ts) : EachAll q p (unfold ts) := by
  induction ts with
  | nil => exact h
  | cons t ts ih =>
    cases t with
    | leaf a => exact ⟨h.1, ih h.2⟩
    | node a children => exact (eachAll_append children ts).mpr ⟨h.1.2, h.2⟩

mutual

theorem Each.leaves : (t : Rose α) → t.Each q p → ∀ a ∈ t.leaves, q a
  | leaf a, h, b, hb => by
    obtain rfl := List.mem_singleton.mp hb
    exact h
  | node _ children, h, b, hb => EachAll.leaves children h.2 b hb

theorem EachAll.leaves : (ts : List (Rose α)) → EachAll q p ts → ∀ a ∈ leavesAll ts, q a
  | [], _, _, ha => absurd ha List.not_mem_nil
  | t :: ts, h, a, ha => by
    rcases List.mem_append.mp ha with ha | ha
    · exact Each.leaves t h.1 a ha
    · exact EachAll.leaves ts h.2 a ha

end

/-- What holds of all inner nodes may be weakened. -/
theorem EachAll.imp {p' : α → List (Rose α) → Prop} (hp : ∀ a children, p a children → p' a children) :
    (ts : List (Rose α)) → EachAll q p ts → EachAll (fun _ => True) p' ts
  | [], _ => trivial
  | leaf _ :: ts, h => ⟨trivial, EachAll.imp hp ts h.2⟩
  | node a children :: ts, h => ⟨⟨hp a children h.1.1, EachAll.imp hp children h.1.2⟩, EachAll.imp hp ts h.2⟩

theorem EachAll.and {p' : α → List (Rose α) → Prop} :
    (ts : List (Rose α)) → EachAll q p ts → EachAll q p' ts → EachAll q (fun a children => p a children ∧ p' a children) ts
  | [], _, _ => trivial
  | leaf _ :: ts, h, h' => ⟨h.1, EachAll.and ts h.2 h'.2⟩
  | node _ children :: ts, h, h' => ⟨⟨⟨h.1.1, h'.1.1⟩, EachAll.and children h.1.2 h'.1.2⟩, EachAll.and ts h.2 h'.2⟩

theorem of_mem_leaves {as : List α} (h : EachAll q p (as.map leaf)) : ∀ a ∈ as, q a := by
  induction as with
  | nil => exact fun a ha => absurd ha List.not_mem_nil
  | cons b as ih => exact List.forall_mem_cons.mpr ⟨h.1, ih h.2⟩

end

/-! ## Leaves in order -/

variable {r within : α → α → Prop}

/-- What is within two that are in order is in order. -/
structure Spacing (r within : α → α → Prop) : Prop where
  refl : ∀ a, within a a
  trans : ∀ {a b c}, within a b → within b c → within a c
  mono : ∀ {a b c d}, r a b → within a c → within b d → r c d

/-- The children are in order and within the node. -/
def Nested (r within : α → α → Prop) (a : α) (children : List (Rose α)) : Prop :=
  (children.map label).Pairwise r ∧ ∀ c ∈ children, within a c.label

mutual

theorem leaves_ordered (hs : Spacing r within) : (t : Rose α) → t.Each (fun _ => True) (Nested r within) →
    t.leaves.Pairwise r ∧ ∀ x ∈ t.leaves, within t.label x
  | leaf a, _ => by
    refine ⟨List.pairwise_singleton r a, fun x hx => ?_⟩
    obtain rfl := List.mem_singleton.mp hx
    exact hs.refl x
  | node a children, h => by
    obtain ⟨hordered, hwithin⟩ := leavesAll_ordered hs children h.2 h.1.1
    refine ⟨hordered, fun x hx => ?_⟩
    obtain ⟨c, hc, hcx⟩ := hwithin x hx
    exact hs.trans (h.1.2 c hc) hcx

/-- Trees in order have their leaves in order. -/
theorem leavesAll_ordered (hs : Spacing r within) : (ts : List (Rose α)) → EachAll (fun _ => True) (Nested r within) ts → (ts.map label).Pairwise r →
    (leavesAll ts).Pairwise r ∧ ∀ x ∈ leavesAll ts, ∃ t ∈ ts, within t.label x
  | [], _, _ => ⟨List.Pairwise.nil, fun x hx => absurd hx List.not_mem_nil⟩
  | t :: ts, h, hts => by
    obtain ⟨hfirst, hrest⟩ := List.pairwise_cons.mp hts
    obtain ⟨hordered, hwithin⟩ := leaves_ordered hs t h.1
    obtain ⟨hordered', hwithin'⟩ := leavesAll_ordered hs ts h.2 hrest
    rw [leavesAll]
    refine ⟨List.pairwise_append.mpr ⟨hordered, hordered', fun x hx y hy => ?_⟩, fun x hx => ?_⟩
    · obtain ⟨u, hu, huy⟩ := hwithin' y hy
      exact hs.mono (hfirst u.label (List.mem_map_of_mem hu)) (hwithin x hx) huy
    · rcases List.mem_append.mp hx with hx | hx
      · exact ⟨t, List.mem_cons_self, hwithin x hx⟩
      · obtain ⟨u, hu, hux⟩ := hwithin' x hx
        exact ⟨u, List.mem_cons_of_mem t hu, hux⟩

end

end Rose

end Weft
