-- A linked list in an arena: nodes are numbered as they are made, and a node
-- can be put behind any other at once. The arena is read as the list of its
-- numbered values, and each operation does to the list what it says.
import Mathlib.Data.List.Basic
import Mathlib.Data.List.Nodup

namespace linkedarena

variable {α : Type}

structure Link (α : Type) where
  value : α
  next : Option Nat

structure Arena (α : Type) where
  nodes : List (Link α)
  head : Option Nat
  tail : Option Nat

namespace Arena

def empty : Arena α := ⟨[], none, none⟩

def setNext (next : Option Nat) (link : Link α) : Link α := { link with next }

/-- Puts a value at the end. -/
def append (s : Arena α) (value : α) : Arena α :=
  let index := s.nodes.length
  let nodes : List (Link α) := s.nodes ++ [⟨value, none⟩]
  match s.tail with
  | some tail => ⟨nodes.modify tail (setNext (some index)), s.head, some index⟩
  | none => ⟨nodes, some index, some index⟩

/-- Puts a value behind a node. -/
def insertAfter (s : Arena α) (anchor : Nat) (value : α) : Arena α :=
  match s.nodes[anchor]? with
  | none => s
  | some link =>
    let index := s.nodes.length
    let nodes : List (Link α) := s.nodes ++ [⟨value, link.next⟩]
    ⟨nodes.modify anchor (setNext (some index)), s.head, if s.tail = some anchor then some index else s.tail⟩

/-- Follows the links from a node, for so many nodes at most. -/
def walk (nodes : List (Link α)) : Nat → Option Nat → List α
  | 0, _ | _, none => []
  | steps + 1, some index =>
    match nodes[index]? with
    | none => []
    | some link => link.value :: walk nodes steps link.next

def toList (s : Arena α) : List α := walk s.nodes s.nodes.length s.head

/-! ## The list that an arena stands for -/

/-- The links from a node go through these nodes, and end there. -/
def Chain (nodes : List (Link α)) : Option Nat → List (Nat × α) → Prop
  | current, [] => current = none
  | current, (i, a) :: rest =>
    current = some i ∧ ∃ next, nodes[i]? = some ⟨a, next⟩ ∧ Chain nodes next rest

structure View (s : Arena α) (l : List (Nat × α)) : Prop where
  chain : Chain s.nodes s.head l
  tail : s.tail = l.getLast?.map Prod.fst
  nodup : (l.map Prod.fst).Nodup

theorem view_empty : View (empty : Arena α) [] := ⟨rfl, rfl, List.nodup_nil⟩

theorem Chain.mem {nodes : List (Link α)} {current : Option Nat} {l : List (Nat × α)}
    (h : Chain nodes current l) : ∀ i ∈ l.map Prod.fst, i < nodes.length := by
  induction l generalizing current with
  | nil => simp
  | cons p rest ih =>
    obtain ⟨i, a⟩ := p
    obtain ⟨-, next, hget, hrest⟩ := h
    intro j hj
    rcases List.mem_cons.mp hj with rfl | hj
    · exact (List.getElem?_eq_some_iff.mp hget).1
    · exact ih hrest j hj

theorem Chain.congr {nodes nodes' : List (Link α)} {current : Option Nat} {l : List (Nat × α)}
    (h : Chain nodes current l) (hsame : ∀ i ∈ l.map Prod.fst, nodes'[i]? = nodes[i]?) :
    Chain nodes' current l := by
  induction l generalizing current with
  | nil => exact h
  | cons p rest ih =>
    obtain ⟨i, a⟩ := p
    obtain ⟨hcurrent, next, hget, hrest⟩ := h
    refine ⟨hcurrent, next, ?_, ih hrest fun j hj => hsame j (List.mem_cons_of_mem _ hj)⟩
    rw [hsame i (List.mem_cons_self ..), hget]

/-- A value that is put behind a node stands behind it. -/
theorem Chain.insert {nodes : List (Link α)} {current : Option Nat} {xs ys : List (Nat × α)}
    {i : Nat} {a b : α} {next : Option Nat} (h : Chain nodes current (xs ++ (i, a) :: ys))
    (hnodup : ((xs ++ (i, a) :: ys).map Prod.fst).Nodup) (hget : nodes[i]? = some ⟨a, next⟩) :
    Chain ((nodes ++ [Link.mk b next]).modify i (setNext (some nodes.length))) current
      (xs ++ (i, a) :: (nodes.length, b) :: ys) := by
  have hlt : i < nodes.length := (List.getElem?_eq_some_iff.mp hget).1
  have hother : ∀ j, j < nodes.length → j ≠ i →
      ((nodes ++ [Link.mk b next]).modify i (setNext (some nodes.length)))[j]? = nodes[j]? := by
    intro j hj hne
    rw [List.getElem?_modify, List.getElem?_append_left hj]
    simp [Ne.symm hne]
  induction xs generalizing current with
  | nil =>
    obtain ⟨hcurrent, next', hget', hrest⟩ := h
    obtain rfl : next = next' := by
      rw [hget] at hget'
      exact (Link.mk.inj (Option.some.inj hget')).2
    refine ⟨hcurrent, some nodes.length, ?_, rfl, next, ?_, ?_⟩
    · rw [List.getElem?_modify, List.getElem?_append_left hlt, hget]
      simp [setNext]
    · rw [List.getElem?_modify]
      simp [Nat.ne_of_lt hlt]
    · refine hrest.congr fun j hj => hother j (hrest.mem j hj) ?_
      rintro rfl
      exact (List.nodup_cons.mp hnodup).1 hj
  | cons p xs ih =>
    obtain ⟨j, c⟩ := p
    obtain ⟨hcurrent, next', hget', hrest⟩ := h
    have hne : j ≠ i := by
      rintro rfl
      apply (List.nodup_cons.mp hnodup).1
      simp
    have hjlt : j < nodes.length := (List.getElem?_eq_some_iff.mp hget').1
    refine ⟨hcurrent, next', ?_, ih hrest (List.nodup_cons.mp hnodup).2⟩
    rw [hother j hjlt hne, hget']

theorem Chain.get {nodes : List (Link α)} {current : Option Nat} {xs ys : List (Nat × α)}
    {i : Nat} {a : α} (h : Chain nodes current (xs ++ (i, a) :: ys)) :
    ∃ next, nodes[i]? = some ⟨a, next⟩ ∧ Chain nodes next ys := by
  induction xs generalizing current with
  | nil => exact h.2
  | cons p xs ih =>
    obtain ⟨-, next, -, hrest⟩ := h
    exact ih hrest

theorem View.insertAfter {s : Arena α} {xs ys : List (Nat × α)} {i : Nat} {a : α}
    (h : View s (xs ++ (i, a) :: ys)) (b : α) :
    View (s.insertAfter i b) (xs ++ (i, a) :: (s.nodes.length, b) :: ys) := by
  obtain ⟨next, hget, -⟩ := h.chain.get
  have hfresh : ∀ j ∈ (xs ++ (i, a) :: ys).map Prod.fst, j ≠ s.nodes.length := fun j hj =>
    Nat.ne_of_lt (h.chain.mem j hj)
  unfold Arena.insertAfter
  simp only [hget]
  refine ⟨h.chain.insert h.nodup hget, ?_, ?_⟩
  · have htail := h.tail
    cases ys with
    | nil => simp [htail]
    | cons y ys =>
      have hlast : (xs ++ (i, a) :: y :: ys).getLast?.map Prod.fst ≠ some i := by
        intro heq
        obtain ⟨p, hp, hpi⟩ := Option.map_eq_some_iff.mp heq
        rw [List.getLast?_append, List.getLast?_cons_cons] at hp
        have hnodup := h.nodup
        rw [List.map_append, List.nodup_append] at hnodup
        have hmem : p ∈ y :: ys := by
          cases hys : (y :: ys).getLast? with
          | none => simp at hys
          | some q =>
            rw [hys] at hp
            obtain rfl : q = p := by simpa using hp
            exact List.mem_of_getLast? hys
        apply (List.nodup_cons.mp hnodup.2.1).1
        exact List.mem_map.mpr ⟨p, hmem, hpi⟩
      rw [htail, if_neg hlast]
      simp [List.getLast?_append, List.getLast?_cons_cons]
  · have hperm : ((xs ++ (i, a) :: (s.nodes.length, b) :: ys).map Prod.fst).Perm
        (s.nodes.length :: (xs ++ (i, a) :: ys).map Prod.fst) := by
      simp only [List.map_append, List.map_cons]
      exact (List.Perm.append_left _ (List.Perm.swap _ _ _)).trans List.perm_middle
    rw [hperm.nodup_iff, List.nodup_cons]
    exact ⟨fun hmem => hfresh _ hmem rfl, h.nodup⟩

theorem View.append {s : Arena α} {l : List (Nat × α)} (h : View s l) (b : α) :
    View (s.append b) (l ++ [(s.nodes.length, b)]) := by
  rcases List.eq_nil_or_concat l with rfl | ⟨xs, ⟨i, a⟩, rfl⟩
  · have htail : s.tail = none := h.tail
    unfold Arena.append
    simp only [htail]
    refine ⟨⟨rfl, none, ?_, rfl⟩, rfl, List.nodup_singleton _⟩
    simp
  · -- the last node has nothing behind it, so this is an insertion
    rw [List.concat_eq_append] at h ⊢
    obtain ⟨next, hget, hnext⟩ := h.chain.get
    obtain rfl : next = none := hnext
    have htail : s.tail = some i := by simpa using h.tail
    have hinsert := h.insertAfter b
    rw [List.append_assoc]
    unfold Arena.insertAfter at hinsert
    unfold Arena.append
    simpa [hget, htail] using hinsert

/-- The end of the list is the node that was put there last. -/
theorem View.anchor {s : Arena α} {xs : List (Nat × α)} {i : Nat} {a : α}
    (h : View s (xs ++ [(i, a)])) : s.tail = some i := by
  simpa using h.tail

/-- Behind the end that a list had, however much stands there now. -/
theorem View.insertBehind {s s' : Arena α} {l l' : List (Nat × α)} (h : View s l)
    (h' : View s' (l ++ l')) {anchor : Nat} (hanchor : s.tail = some anchor) (b : α) :
    View (s'.insertAfter anchor b) (l ++ (s'.nodes.length, b) :: l') := by
  have hne : l ≠ [] := by
    rintro rfl
    have htail : s.tail = none := h.tail
    rw [hanchor] at htail
    cases htail
  obtain ⟨xs, ⟨i, a⟩, rfl⟩ := (List.eq_nil_or_concat l).resolve_left hne
  rw [List.concat_eq_append] at h h' ⊢
  obtain rfl : anchor = i := by
    rw [h.anchor] at hanchor
    exact (Option.some.inj hanchor).symm
  rw [List.append_assoc] at h'
  simpa using h'.insertAfter b

theorem walk_chain {nodes : List (Link α)} {current : Option Nat} {l : List (Nat × α)}
    (h : Chain nodes current l) {steps : Nat} (hsteps : l.length ≤ steps) :
    walk nodes steps current = l.map Prod.snd := by
  induction l generalizing current steps with
  | nil =>
    obtain rfl : current = none := h
    cases steps <;> rfl
  | cons p rest ih =>
    obtain ⟨i, a⟩ := p
    obtain ⟨rfl, next, hget, hrest⟩ := h
    cases steps with
    | zero => simp at hsteps
    | succ steps =>
      simp only [walk, hget, List.map_cons]
      rw [ih hrest (Nat.le_of_succ_le_succ hsteps)]

theorem View.toList {s : Arena α} {l : List (Nat × α)} (h : View s l) :
    s.toList = l.map Prod.snd := by
  apply walk_chain h.chain
  have hin : (l.map Prod.fst) ⊆ List.range s.nodes.length := fun i hi =>
    List.mem_range.mpr (h.chain.mem i hi)
  simpa using h.nodup.length_le_of_subset hin

end Arena

end linkedarena
