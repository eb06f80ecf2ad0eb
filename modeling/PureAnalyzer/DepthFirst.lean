-- Depth-first search of a directed graph as an abstract machine: the open
-- nodes, each with the edges it has still to follow, and the nodes that are
-- done. A search that ends has met no cycle, and one that is led back to an
-- open node has met one.
import Mathlib.Algebra.BigOperators.Group.Finset.Basic
import Mathlib.Algebra.GroupWithZero.Nat
import Mathlib.Algebra.Order.BigOperators.Group.Finset
import Mathlib.Data.Set.Insert
import Mathlib.Logic.Relation

namespace depthfirst

variable {α : Type*} {succ : α → List α}

/-! ## The machine -/

/-- The open nodes with the edges left to follow, innermost first, and the
nodes that are done. -/
structure Search (α : Type*) where
  stack : List (α × List α)
  done : Set α

/-- The graph of a successor function. -/
def Edge (succ : α → List α) (v w : α) : Prop := w ∈ succ v

def Search.openNodes (s : Search α) : List α := s.stack.map Prod.fst

/-- One turn closes the innermost node, opens a new one or skips a done one. -/
inductive Turn (succ : α → List α) : Search α → Search α → Prop
  | finish {v rest done} : Turn succ ⟨(v, []) :: rest, done⟩ ⟨rest, insert v done⟩
  | enter {v w ws rest done} : w ∉ done → w ∉ v :: rest.map Prod.fst →
      Turn succ ⟨(v, w :: ws) :: rest, done⟩ ⟨(w, succ w) :: (v, ws) :: rest, done⟩
  | skip {v w ws rest done} : w ∈ done →
      Turn succ ⟨(v, w :: ws) :: rest, done⟩ ⟨(v, ws) :: rest, done⟩

/-- The next edge leads back to an open node. -/
def Search.Back (s : Search α) : Prop :=
  ∃ v w ws rest, s.stack = (v, w :: ws) :: rest ∧ w ∈ v :: rest.map Prod.fst

/-! ## What every turn keeps -/

/-- The open nodes are new and different. Each edge of one is left to follow,
done, or led to the node opened above it. -/
def Opened (succ : α → List α) (done : Set α) : Option α → List (α × List α) → Prop
  | _, [] => True
  | above, (v, ws) :: rest =>
    (v ∉ done ∧ v ∉ rest.map Prod.fst) ∧
      (∀ t ∈ succ v, t ∈ ws ∨ t ∈ done ∨ above = some t) ∧
      (∀ t, t ∈ ws ∨ above = some t → t ∈ succ v) ∧
      Opened succ done (some v) rest

/-- No edge leaves the done nodes, and no cycle runs through them. -/
structure Sound (succ : α → List α) (s : Search α) : Prop where
  opened : Opened succ s.done none s.stack
  closed : ∀ v ∈ s.done, ∀ w ∈ succ v, w ∈ s.done
  acyclic : ∀ v ∈ s.done, ¬ Relation.TransGen (Edge succ) v v

theorem Opened.insert {done : Set α} {above : Option α} {stack : List (α × List α)} {u : α}
    (h : Opened succ done above stack) (hu : u ∉ stack.map Prod.fst) :
    Opened succ (Insert.insert u done) above stack := by
  induction stack generalizing above with
  | nil => trivial
  | cons frame rest ih =>
    obtain ⟨v, ws⟩ := frame
    obtain ⟨⟨hv, hrest⟩, hedges, hleft, hbelow⟩ := h
    rw [List.map_cons, List.mem_cons, not_or] at hu
    refine ⟨⟨?_, hrest⟩, ?_, hleft, ih hbelow hu.2⟩
    · rintro (heq | hdone)
      · exact hu.1 heq.symm
      · exact hv hdone
    · intro t ht
      rcases hedges t ht with h | h | h
      · exact .inl h
      · exact .inr (.inl (.inr h))
      · exact .inr (.inr h)

/-- Once the node above is done, the edge that led to it is. -/
theorem Opened.finish {done : Set α} {stack : List (α × List α)} {u : α}
    (h : Opened succ done (some u) stack) (hu : u ∉ stack.map Prod.fst) :
    Opened succ (Insert.insert u done) none stack := by
  cases stack with
  | nil => trivial
  | cons frame rest =>
    obtain ⟨v, ws⟩ := frame
    obtain ⟨hnew, hedges, hleft, hbelow⟩ := h.insert hu
    refine ⟨hnew, ?_, fun t ht => hleft t (ht.imp_right nofun), hbelow⟩
    intro t ht
    rcases hedges t ht with h | h | h
    · exact .inl h
    · exact .inr (.inl h)
    · obtain rfl := Option.some.inj h
      exact .inr (.inl (.inl rfl))

theorem closed_of_reaches {done : Set α} (h : ∀ v ∈ done, ∀ w ∈ succ v, w ∈ done) {v w : α}
    (hv : v ∈ done) (hvw : Relation.ReflTransGen (Edge succ) v w) : w ∈ done := by
  induction hvw with
  | refl => exact hv
  | tail _ hedge ih => exact h _ ih _ hedge

theorem Sound.turn {s t : Search α} (h : Sound succ s) (ht : Turn succ s t) : Sound succ t := by
  cases ht with
  | @finish v rest done =>
    obtain ⟨⟨hnew, hrest⟩, hedges, -, hbelow⟩ := h.opened
    have hdone : ∀ w ∈ succ v, w ∈ done := by
      intro w hw
      rcases hedges w hw with h | h | h
      · cases h
      · exact h
      · cases h
    constructor
    · exact hbelow.finish hrest
    · rintro u (rfl | hu) w hw
      · exact .inr (hdone w hw)
      · exact .inr (h.closed u hu w hw)
    · rintro u (rfl | hu) hcycle
      · -- a cycle would come back to the node from one that was done before it
        obtain ⟨w, hedge, hback⟩ := Relation.TransGen.head'_iff.mp hcycle
        exact hnew (closed_of_reaches h.closed (hdone w hedge) hback)
      · exact h.acyclic u hu hcycle
  | @enter v w ws rest done hw hfresh =>
    obtain ⟨hnew, hedges, hleft, hbelow⟩ := h.opened
    refine ⟨⟨⟨hw, hfresh⟩, fun t ht => .inl ht, ?_, hnew, ?_, ?_, hbelow⟩, h.closed, h.acyclic⟩
    · rintro t (ht | ht)
      · exact ht
      · cases ht
    · intro t ht
      rcases hedges t ht with h | h | h
      · rcases List.mem_cons.mp h with rfl | h
        · exact .inr (.inr rfl)
        · exact .inl h
      · exact .inr (.inl h)
      · cases h
    · rintro t (ht | ht)
      · exact hleft t (.inl (List.mem_cons_of_mem _ ht))
      · obtain rfl := Option.some.inj ht
        exact hleft w (.inl List.mem_cons_self)
  | @skip v w ws rest done hw =>
    obtain ⟨hnew, hedges, hleft, hbelow⟩ := h.opened
    refine ⟨⟨hnew, ?_, ?_, hbelow⟩, h.closed, h.acyclic⟩
    · intro t ht
      rcases hedges t ht with h | h | h
      · rcases List.mem_cons.mp h with rfl | h
        · exact .inr (.inl hw)
        · exact .inl h
      · exact .inr (.inl h)
      · cases h
    · rintro t (ht | ht)
      · exact hleft t (.inl (List.mem_cons_of_mem _ ht))
      · cases ht

/-- Every open node leads to the innermost one. -/
theorem Opened.leads {done : Set α} {above : Option α} {v : α} {ws : List α}
    {rest : List (α × List α)} (h : Opened succ done above ((v, ws) :: rest)) {u : α}
    (hu : u ∈ rest.map Prod.fst) : Relation.TransGen (Edge succ) u v := by
  induction rest generalizing above v ws with
  | nil => cases hu
  | cons frame rest ih =>
    obtain ⟨x, xs⟩ := frame
    have hbelow := h.2.2.2
    have hedge : Edge succ x v := hbelow.2.2.1 v (.inr rfl)
    rcases List.mem_cons.mp hu with rfl | hu
    · exact .single hedge
    · exact .tail (ih hbelow hu) hedge

/-- An edge back to an open node closes a cycle. -/
theorem Sound.cycle {s : Search α} (h : Sound succ s) (hback : s.Back) :
    ∃ v, Relation.TransGen (Edge succ) v v := by
  obtain ⟨v, w, ws, rest, hstack, hw⟩ := hback
  have hopened := h.opened
  rw [hstack] at hopened
  have hedge : Edge succ v w := hopened.2.2.1 w (.inl List.mem_cons_self)
  rcases List.mem_cons.mp hw with rfl | hw
  · exact ⟨w, .single hedge⟩
  · exact ⟨w, .tail (hopened.leads hw) hedge⟩

/-! ## Runs -/

theorem Turn.done_subset {s t : Search α} (h : Turn succ s t) : s.done ⊆ t.done := by
  cases h with
  | finish => exact Set.subset_insert _ _
  | enter => exact subset_rfl
  | skip => exact subset_rfl

/-- An open node stays open until it is done. -/
theorem Turn.open_or_done {s t : Search α} (h : Turn succ s t) {u : α} (hu : u ∈ s.openNodes) :
    u ∈ t.openNodes ∨ u ∈ t.done := by
  cases h with
  | finish =>
    rcases List.mem_cons.mp hu with rfl | hu
    · exact .inr (.inl rfl)
    · exact .inl hu
  | enter => exact .inl (List.mem_cons_of_mem _ hu)
  | skip => exact .inl hu

/-! ## The number of turns -/

section cost

variable (nodes : Finset α)

open Classical in
/-- The nodes that the search has not met yet. -/
noncomputable def Search.fresh (s : Search α) : Finset α :=
  nodes.filter fun v => v ∉ s.done ∧ v ∉ s.openNodes

/-- An open node costs one turn for each edge left and one to close it, and a
new one costs that for all of its edges. -/
noncomputable def Search.cost (succ : α → List α) (s : Search α) : Nat :=
  (s.stack.map fun frame => frame.2.length + 1).sum +
    (s.fresh nodes).sum fun v => (succ v).length + 1

variable {nodes}

/-- Every turn takes one off the cost. -/
theorem Turn.cost {s t : Search α} (hnodes : ∀ v, ∀ w ∈ succ v, w ∈ nodes) (hs : Sound succ s)
    (h : Turn succ s t) : t.cost nodes succ + 1 = s.cost nodes succ := by
  classical
  cases h with
  | @finish v rest done =>
    have hfresh : Search.fresh nodes ⟨rest, Insert.insert v done⟩ =
        Search.fresh nodes ⟨(v, []) :: rest, done⟩ := by
      unfold Search.fresh Search.openNodes
      congr 1
      funext u
      simp only [Set.mem_insert_iff, List.map_cons, List.mem_cons, not_or, eq_iff_iff]
      tauto
    unfold Search.cost
    rw [hfresh]
    simp only [List.map_cons, List.sum_cons, List.length_nil]
    omega
  | @enter v w ws rest done hw hnew =>
    have hmem : w ∈ Search.fresh nodes ⟨(v, w :: ws) :: rest, done⟩ := by
      unfold Search.fresh
      refine Finset.mem_filter.mpr ⟨hnodes v w ?_, hw, hnew⟩
      exact hs.opened.2.2.1 w (.inl List.mem_cons_self)
    have hfresh : Search.fresh nodes ⟨(w, succ w) :: (v, ws) :: rest, done⟩ =
        (Search.fresh nodes ⟨(v, w :: ws) :: rest, done⟩).erase w := by
      ext u
      simp only [Search.fresh, Search.openNodes, Finset.mem_erase, Finset.mem_filter,
        List.map_cons, List.mem_cons, not_or]
      tauto
    have hsum := Finset.add_sum_erase _ (fun v => (succ v).length + 1) hmem
    unfold Search.cost
    rw [hfresh]
    simp only [List.map_cons, List.sum_cons, List.length_cons]
    omega
  | @skip v w ws rest done hw =>
    have hfresh : Search.fresh nodes ⟨(v, ws) :: rest, done⟩ =
        Search.fresh nodes ⟨(v, w :: ws) :: rest, done⟩ := rfl
    unfold Search.cost
    rw [hfresh]
    simp only [List.map_cons, List.sum_cons, List.length_cons]
    omega

/-- A search from one node costs no more than the whole graph. -/
theorem cost_start {v : α} {done : Set α} (hv : v ∈ nodes) :
    (⟨[(v, succ v)], done⟩ : Search α).cost nodes succ ≤
      nodes.sum fun u => (succ u).length + 1 := by
  classical
  have hsubset : Search.fresh nodes ⟨[(v, succ v)], done⟩ ⊆ nodes.erase v := by
    intro u hu
    obtain ⟨hmem, -, hopen⟩ := Finset.mem_filter.mp hu
    refine Finset.mem_erase.mpr ⟨?_, hmem⟩
    rintro rfl
    exact hopen List.mem_cons_self
  have hle := Finset.sum_le_sum_of_subset (f := fun u => (succ u).length + 1) hsubset
  have hsum := Finset.add_sum_erase nodes (fun u => (succ u).length + 1) hv
  unfold Search.cost
  simp only [List.map_cons, List.map_nil, List.sum_cons, List.sum_nil]
  omega

end cost

end depthfirst
