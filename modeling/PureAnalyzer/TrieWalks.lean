-- What a walk in a trie answers, for any names and any cut of a name into
-- tokens. The edges of every node stay sorted, so the binary searches of the
-- source find what the lookups of the model find.
import Mathlib.Data.Nat.Basic
import PureAnalyzer.BinarySearch
import PureAnalyzer.TrieLaws

namespace purecard.trie

open binarysearch

/-! ## Sorted edges -/

def edgeKey (edge : UInt8 × Nat) : Nat := edge.1.toNat

def EdgesSorted (edges : List (UInt8 × Nat)) : Prop :=
  edges.Pairwise fun a b => edgeKey a < edgeKey b

theorem lookup_of_mem {edges : List (UInt8 × Nat)} (h : EdgesSorted edges) {b : UInt8} {c : Nat}
    (hmem : (b, c) ∈ edges) : edges.lookup b = some c := by
  induction edges with
  | nil => cases hmem
  | cons edge edges ih =>
    obtain ⟨hfirst, hrest⟩ := List.pairwise_cons.mp h
    rw [Trie.lookup_edge]
    rcases List.mem_cons.mp hmem with rfl | hmem
    · rw [if_pos rfl]
    · have hne : ¬ b = edge.1 := by
        rintro rfl
        exact absurd (hfirst _ hmem) (Nat.lt_irrefl _)
      rw [if_neg hne]
      exact ih hrest hmem

theorem lookup_eq_none {edges : List (UInt8 × Nat)} {b : UInt8}
    (h : ∀ edge ∈ edges, edgeKey edge ≠ b.toNat) : edges.lookup b = none := by
  induction edges with
  | nil => rfl
  | cons edge edges ih =>
    have hne : ¬ b = edge.1 := by
      rintro rfl
      exact h edge List.mem_cons_self rfl
    rw [Trie.lookup_edge, if_neg hne]
    exact ih fun e he => h e (List.mem_cons_of_mem _ he)

/-- Where the search ends without an edge, no edge has the byte. -/
theorem lookup_of_between {edges : List (UInt8 × Nat)} {b : UInt8} {i : Nat}
    (h : Between edgeKey b.toNat edges i i) : edges.lookup b = none := by
  refine lookup_eq_none fun edge hedge => ?_
  obtain ⟨j, hj⟩ := List.getElem?_of_mem hedge
  rcases Nat.lt_or_ge j i with hlt | hge
  · exact Nat.ne_of_lt (h.before j hlt edge hj)
  · exact Nat.ne_of_gt (h.behind j hge edge hj)

/-- The edge that the binary search finds is the edge of the byte. -/
theorem lookup_eq_search {edges : List (UInt8 × Nat)} (h : EdgesSorted edges) (b : UInt8) :
    edges.lookup b = match search edgeKey b.toNat edges with
      | .ok i => (edges[i]?).map Prod.snd
      | .error _ => none := by
  obtain ⟨i, edge, hsearch, hedge, hkey⟩ | ⟨i, hsearch, hbetween⟩ := search_spec h b.toNat
  · have hbyte : edge.1 = b := UInt8.toNat_inj.mp hkey
    simp only [hsearch, hedge, Option.map_some]
    refine lookup_of_mem h ?_
    rw [← hbyte]
    exact List.mem_of_getElem? hedge
  · simp only [hsearch]
    exact lookup_of_between hbetween

theorem insertEdge_of_between {edges : List (UInt8 × Nat)} {b : UInt8} {i c : Nat}
    (h : Between edgeKey b.toNat edges i i) :
    Trie.insertEdge b c edges = edges.insertIdx i (b, c) := by
  induction edges generalizing i with
  | nil =>
    obtain rfl : i = 0 := Nat.le_zero.mp h.inside
    rfl
  | cons edge edges ih =>
    cases i with
    | zero =>
      have hbehind : b.toNat < edge.1.toNat := h.behind 0 (Nat.le_refl _) edge rfl
      rw [Trie.insertEdge, if_neg (UInt8.not_lt.mpr (UInt8.le_iff_toNat_le.mpr (by omega)))]
      rfl
    | succ i =>
      have hbefore : edge.1.toNat < b.toNat := h.before 0 (Nat.succ_pos i) edge rfl
      have hrest : Between edgeKey b.toNat edges i i :=
        ⟨Nat.le_refl _, Nat.le_of_succ_le_succ h.inside,
          fun j hj e he => h.before (j + 1) (Nat.succ_lt_succ hj) e he,
          fun j hj e he => h.behind (j + 1) (Nat.succ_le_succ hj) e he⟩
      rw [Trie.insertEdge, if_pos (UInt8.lt_iff_toNat_lt.mpr hbefore), ih hrest,
        List.insertIdx_succ_cons]

/-- A new edge goes where the binary search says that it would stand. -/
theorem insertEdge_eq_search {edges : List (UInt8 × Nat)} (h : EdgesSorted edges) {b : UInt8}
    (hnone : edges.lookup b = none) (c : Nat) :
    ∃ i, search edgeKey b.toNat edges = .error i ∧
      Trie.insertEdge b c edges = edges.insertIdx i (b, c) := by
  obtain ⟨i, edge, -, hedge, hkey⟩ | ⟨i, hsearch, hbetween⟩ := search_spec h b.toNat
  · have hbyte : edge.1 = b := UInt8.toNat_inj.mp hkey
    have hmem := List.mem_of_getElem? hedge
    rw [← hbyte, lookup_of_mem h hmem] at hnone
    cases hnone
  · exact ⟨i, hsearch, insertEdge_of_between hbetween⟩

theorem mem_insertEdge {edges : List (UInt8 × Nat)} {b : UInt8} {c : Nat} {e : UInt8 × Nat}
    (h : e ∈ Trie.insertEdge b c edges) : e = (b, c) ∨ e ∈ edges := by
  induction edges with
  | nil => exact .inl (List.mem_singleton.mp h)
  | cons edge edges ih =>
    unfold Trie.insertEdge at h
    split at h
    · rcases List.mem_cons.mp h with rfl | h
      · exact .inr List.mem_cons_self
      · exact (ih h).imp_right (List.mem_cons_of_mem _)
    · exact List.mem_cons.mp h

theorem insertEdge_sorted {edges : List (UInt8 × Nat)} (h : EdgesSorted edges) {b : UInt8}
    (hnone : edges.lookup b = none) (c : Nat) : EdgesSorted (Trie.insertEdge b c edges) := by
  induction edges with
  | nil => exact List.pairwise_singleton _ _
  | cons edge edges ih =>
    obtain ⟨hfirst, hrest⟩ := List.pairwise_cons.mp h
    rw [Trie.lookup_edge] at hnone
    have hne : ¬ b = edge.1 := by
      intro hb
      rw [if_pos hb] at hnone
      cases hnone
    rw [if_neg hne] at hnone
    unfold Trie.insertEdge
    split
    · next hlt =>
      refine List.pairwise_cons.mpr ⟨fun e he => ?_, ih hrest hnone⟩
      rcases mem_insertEdge he with rfl | he
      · exact UInt8.lt_iff_toNat_lt.mp hlt
      · exact hfirst e he
    · next hge =>
      have hlt : b.toNat < edge.1.toNat := by
        have hle : b.toNat ≤ edge.1.toNat := UInt8.le_iff_toNat_le.mp (UInt8.not_lt.mp hge)
        exact Nat.lt_of_le_of_ne hle fun heq => hne (UInt8.toNat_inj.mp heq)
      refine List.pairwise_cons.mpr ⟨fun e he => ?_, h⟩
      rcases List.mem_cons.mp he with rfl | he
      · exact hlt
      · exact hlt.trans (hfirst e he)

namespace Trie

/-- The edges of every node are sorted. -/
def Sorted (t : Trie) : Prop := ∀ n, EdgesSorted (t.node n).next

theorem descend_sorted {t : Trie} (h : t.Sorted) {n : Nat} (hn : n < t.nodes.length)
    (b : UInt8) : (t.descend n b).1.Sorted := by
  cases hc : t.child n b with
  | some c => rwa [descend_of_child hc]
  | none =>
    intro m
    rw [descend_node hn hc]
    split
    · exact insertEdge_sorted (h n) hc _
    · exact h m

theorem extend_sorted {t : Trie} (h : t.Sorted) (hwf : t.WellFormed) {w : List UInt8} {n : Nat}
    (hw : t.follow 0 w = some n) (rest : List UInt8) : (t.extend n rest).1.Sorted := by
  induction rest generalizing t n w with
  | nil => exact h
  | cons b rest ih =>
    have hn : n < t.nodes.length := follow_lt hwf hwf.root hw
    refine ih (descend_sorted h hn b) (descend_wellFormed hwf hn) (w := w ++ [b]) ?_
    rw [follow_descend hwf hw, if_pos rfl]

theorem foldl_sorted {names : List (List UInt8 × NameClose)} {t : Trie} (h : t.Sorted)
    (hwf : t.WellFormed) :
    (names.foldl (fun t (name, close) => t.insert name close) t).Sorted := by
  induction names generalizing t with
  | nil => exact h
  | cons e names ih =>
    refine ih (fun n => ?_) (insert_wellFormed hwf)
    have hext : (t.extend 0 e.1).1.Sorted := extend_sorted h hwf (w := []) rfl e.1
    rw [insert_node hwf]
    split
    · exact hext n
    · exact hext n

theorem fromClosingNames_sorted (names : List (List UInt8 × NameClose)) :
    (fromClosingNames names).Sorted := by
  refine foldl_sorted (fun n => ?_) empty_represents.wellFormed
  cases n <;> exact List.Pairwise.nil

/-- In every trie of names the binary search finds the child of a byte. -/
theorem child_is_searched (names : List (List UInt8 × NameClose)) (n : Nat) (b : UInt8) :
    (fromClosingNames names).child n b =
      match search edgeKey b.toNat ((fromClosingNames names).node n).next with
      | .ok i => (((fromClosingNames names).node n).next[i]?).map Prod.snd
      | .error _ => none :=
  lookup_eq_search (fromClosingNames_sorted names n) b

end Trie

/-! ## Walks -/

/-- Some name begins with the string. -/
def Begins (names : List (List UInt8 × NameClose)) (w : List UInt8) : Prop :=
  ∃ e ∈ names, w <+: e.1

def Named (names : List (List UInt8 × NameClose)) (w : List UInt8) : Prop := ∃ e ∈ names, e.1 = w

/-- The close of the last pair that spells the name. -/
def ClosesWith (names : List (List UInt8 × NameClose)) (w : List UInt8) (close : NameClose) :
    Prop :=
  ∃ before after, names = before ++ (w, close) :: after ∧ ∀ e ∈ after, e.1 ≠ w

theorem lastClose_of_closesWith {names : List (List UInt8 × NameClose)} {w : List UInt8}
    {close : NameClose} (h : ClosesWith names w close) :
    Trie.lastClose names w = some close := by
  obtain ⟨before, after, rfl, hafter⟩ := h
  rw [List.append_cons]
  induction after using List.reverseRecOn with
  | nil => rw [List.append_nil, Trie.lastClose_snoc, if_pos rfl]
  | append_singleton after e ih =>
    have hne : w ≠ e.1 := (hafter e (by simp)).symm
    rw [← List.append_assoc, Trie.lastClose_snoc, if_neg hne]
    exact ih fun e' he' => hafter e' (List.mem_append_left _ he')

section walks

variable {t : Trie} {n m : Nat} {shape : NameShape}

/-- A walk goes on from where it stayed. -/
theorem walk_append {u : List UInt8} (h : walk t n shape u = .Stay m) (w : List UInt8) :
    walk t n shape (u ++ w) = walk t m shape w := by
  induction u generalizing n with
  | nil =>
    obtain rfl : n = m := Walk.Stay.inj h
    rfl
  | cons b u ih =>
    rw [walk] at h
    rw [List.cons_append, walk]
    cases hc : t.child n b with
    | some c =>
      simp only [hc] at h
      exact ih h
    | none =>
      simp only [hc] at h
      split at h <;> cases h

/-- A walk completes at the first byte without an edge, behind a whole name. -/
theorem walk_complete_iff (boundary : UInt8) (bytes : List UInt8) :
    walk t n shape bytes = .Complete m boundary ↔
      ∃ u rest, bytes = u ++ boundary :: rest ∧ t.follow n u = some m ∧
        t.child m boundary = none ∧ t.isTerminal m = true ∧ shape.continues boundary = false := by
  induction bytes generalizing n with
  | nil =>
    refine iff_of_false nofun ?_
    rintro ⟨u, rest, h, -⟩
    cases u <;> cases h
  | cons b bytes ih =>
    rw [walk]
    cases hc : t.child n b with
    | some c =>
      simp only [ih]
      constructor
      · rintro ⟨u, rest, rfl, hu, hend⟩
        exact ⟨b :: u, rest, rfl, by rw [Trie.follow, hc]; exact hu, hend⟩
      · rintro ⟨u, rest, h, hu, hnone, hend⟩
        cases u with
        | nil =>
          obtain ⟨rfl, rfl⟩ := List.cons.inj h
          obtain rfl : n = m := Option.some.inj hu
          rw [hc] at hnone
          cases hnone
        | cons b' u =>
          obtain ⟨rfl, rfl⟩ := List.cons.inj h
          rw [Trie.follow, hc] at hu
          exact ⟨u, rest, rfl, hu, hnone, hend⟩
    | none =>
      dsimp only
      constructor
      · intro h
        split at h
        · next hend =>
          obtain ⟨rfl, rfl⟩ := Walk.Complete.inj h
          rw [Bool.and_eq_true, Bool.not_eq_true'] at hend
          exact ⟨[], bytes, rfl, rfl, hc, hend⟩
        · cases h
      · rintro ⟨u, rest, h, hu, -, hterminal, hends⟩
        cases u with
        | nil =>
          obtain ⟨rfl, rfl⟩ := List.cons.inj h
          obtain rfl : n = m := Option.some.inj hu
          rw [hterminal, hends]
          rfl
        | cons b' u =>
          obtain ⟨rfl, rfl⟩ := List.cons.inj h
          rw [Trie.follow, hc] at hu
          cases hu

end walks

/-- What the walk of a token answers from the node of `p`: it stays while some
name begins with all the bytes, it completes at the end of a whole name that
no name goes on from, and it diverges otherwise. A longer walk is made of two. -/
structure WalkLaw (names : List (List UInt8 × NameClose)) (shape : NameShape) (p : List UInt8)
    (cursor : Nat) (token : List UInt8) : Prop where
  stays : ∀ n, walk (.fromClosingNames names) cursor shape token = .Stay n ↔
    Begins names (p ++ token) ∧ walk (.fromClosingNames names) 0 shape (p ++ token) = .Stay n
  marks : ∀ n, walk (.fromClosingNames names) cursor shape token = .Stay n →
    ((Trie.fromClosingNames names).isTerminal n = true ↔ Named names (p ++ token)) ∧
      ∀ close, ClosesWith names (p ++ token) close →
        (Trie.fromClosingNames names).closeAt n = close
  completes : ∀ n boundary,
    walk (.fromClosingNames names) cursor shape token = .Complete n boundary ↔
      ∃ name rest, p ++ token = name ++ boundary :: rest ∧ p.length ≤ name.length ∧
        Named names name ∧ ¬ Begins names (name ++ [boundary]) ∧
        shape.continues boundary = false ∧
        walk (.fromClosingNames names) 0 shape name = .Stay n
  diverges : walk (.fromClosingNames names) cursor shape token = .Diverge ↔
    ¬ Begins names (p ++ token) ∧ ¬ ∃ name boundary rest, p ++ token = name ++ boundary :: rest ∧
      p.length ≤ name.length ∧ Named names name ∧ ¬ Begins names (name ++ [boundary]) ∧
      shape.continues boundary = false
  composes : ∀ n, walk (.fromClosingNames names) cursor shape token = .Stay n →
    ∀ more, walk (.fromClosingNames names) n shape more =
      walk (.fromClosingNames names) cursor shape (token ++ more)

section law

variable {names : List (List UInt8 × NameClose)} {shape : NameShape} {p : List UInt8} {cursor : Nat}

theorem walk_root_iff (w : List UInt8) (n : Nat) :
    walk (.fromClosingNames names) 0 shape w = .Stay n ↔
      (Trie.fromClosingNames names).follow 0 w = some n :=
  walk_stay_iff _ 0 n shape w

theorem follow_isSome_iff {w : List UInt8} (hne : w ≠ []) :
    ((Trie.fromClosingNames names).follow 0 w).isSome = true ↔ Begins names w := by
  rw [(Trie.fromClosingNames_represents names).paths]
  exact ⟨fun h => h.resolve_left hne, .inr⟩

theorem follow_of_begins {w : List UInt8} (h : Begins names w) :
    ∃ n, (Trie.fromClosingNames names).follow 0 w = some n :=
  Option.isSome_iff_exists.mp
    (((Trie.fromClosingNames_represents names).paths w).mpr (.inr h))

theorem Named.begins {w : List UInt8} (h : Named names w) : Begins names w := by
  obtain ⟨e, he, rfl⟩ := h
  exact ⟨e, he, List.prefix_rfl⟩

/-- A node is terminal exactly when its string is a name. -/
theorem terminal_iff {w : List UInt8} {n : Nat}
    (h : (Trie.fromClosingNames names).follow 0 w = some n) :
    (Trie.fromClosingNames names).isTerminal n = true ↔ Named names w := by
  rw [((Trie.fromClosingNames_represents names).marks w n h).1, Trie.lastClose_isSome_iff]
  rfl

variable (hcursor : (Trie.fromClosingNames names).follow 0 p = some cursor)

include hcursor

theorem follow_cursor (u : List UInt8) :
    (Trie.fromClosingNames names).follow cursor u =
      (Trie.fromClosingNames names).follow 0 (p ++ u) := by
  rw [Trie.follow_append, hcursor]
  rfl

/-- No edge goes on from a node exactly when no name does. -/
theorem child_none_iff {u : List UInt8} {n : Nat} {boundary : UInt8}
    (h : (Trie.fromClosingNames names).follow cursor u = some n) :
    (Trie.fromClosingNames names).child n boundary = none ↔
      ¬ Begins names (p ++ u ++ [boundary]) := by
  rw [follow_cursor hcursor] at h
  rw [← follow_isSome_iff (by simp), Trie.follow_snoc, h, Bool.not_eq_true,
    Option.isSome_eq_false_iff, Option.isNone_iff_eq_none]
  rfl

theorem completes_iff (token : List UInt8) (n : Nat) (boundary : UInt8) :
    walk (.fromClosingNames names) cursor shape token = .Complete n boundary ↔
      ∃ name rest, p ++ token = name ++ boundary :: rest ∧ p.length ≤ name.length ∧
        Named names name ∧ ¬ Begins names (name ++ [boundary]) ∧
        shape.continues boundary = false ∧
        walk (.fromClosingNames names) 0 shape name = .Stay n := by
  rw [walk_complete_iff]
  constructor
  · rintro ⟨u, rest, rfl, hu, hnone, hterminal, hends⟩
    have hroot := follow_cursor hcursor u ▸ hu
    refine ⟨p ++ u, rest, (List.append_assoc ..).symm, by simp, ?_, ?_, hends, ?_⟩
    · exact (terminal_iff hroot).mp hterminal
    · exact (child_none_iff hcursor hu).mp hnone
    · exact (walk_root_iff _ n).mpr hroot
  · rintro ⟨name, rest, heq, hle, hnamed, hnone, hends, hwalk⟩
    have hpre : p <+: name := by
      refine List.prefix_of_prefix_length_le ⟨token, rfl⟩ ?_ hle
      exact ⟨boundary :: rest, heq.symm⟩
    obtain ⟨u, rfl⟩ := hpre
    rw [List.append_assoc, List.append_cancel_left_eq] at heq
    have hroot := (walk_root_iff _ n).mp hwalk
    have hu := (follow_cursor hcursor u).trans hroot
    exact ⟨u, rest, heq, hu, (child_none_iff hcursor hu).mpr hnone,
      (terminal_iff hroot).mpr hnamed, hends⟩

theorem walkLaw (hp : Begins names p) (token : List UInt8) :
    WalkLaw names shape p cursor token where
  stays n := by
    rw [walk_stay_iff, walk_root_iff, follow_cursor hcursor]
    refine ⟨fun h => ⟨?_, h⟩, fun h => h.2⟩
    by_cases hne : p ++ token = []
    · rw [hne]
      obtain ⟨rfl, -⟩ := List.append_eq_nil_iff.mp hne
      exact hp
    · rw [← follow_isSome_iff hne, h]
      rfl
  marks n hstay := by
    rw [walk_stay_iff, follow_cursor hcursor] at hstay
    refine ⟨terminal_iff hstay, fun close hclose => ?_⟩
    rw [((Trie.fromClosingNames_represents names).marks _ n hstay).2,
      lastClose_of_closesWith hclose]
    rfl
  completes := completes_iff hcursor token
  diverges := by
    constructor
    · intro h
      refine ⟨fun hbegins => ?_, ?_⟩
      · obtain ⟨n, hn⟩ := follow_of_begins hbegins
        rw [← follow_cursor hcursor, ← walk_stay_iff _ _ _ shape, h] at hn
        cases hn
      · rintro ⟨name, boundary, rest, heq, hle, hnamed, hnone, hends⟩
        obtain ⟨n, hn⟩ := follow_of_begins hnamed.begins
        have hcomplete := (completes_iff hcursor token n boundary).mpr
          ⟨name, rest, heq, hle, hnamed, hnone, hends, (walk_root_iff _ n).mpr hn⟩
        rw [h] at hcomplete
        cases hcomplete
    · rintro ⟨hbegins, hnone⟩
      cases h : walk (.fromClosingNames names) cursor shape token with
      | Diverge => rfl
      | Stay n =>
        rw [walk_stay_iff, follow_cursor hcursor] at h
        by_cases hne : p ++ token = []
        · obtain ⟨rfl, -⟩ := List.append_eq_nil_iff.mp hne
          rw [hne] at hbegins
          exact absurd hp hbegins
        · exact absurd ((follow_isSome_iff hne).mp (by rw [h]; rfl)) hbegins
      | Complete n boundary =>
        obtain ⟨name, rest, heq, hle, hnamed, hends, hcontinues, -⟩ :=
          (completes_iff hcursor token n boundary).mp h
        exact absurd ⟨name, boundary, rest, heq, hle, hnamed, hends, hcontinues⟩ hnone
  composes n hstay more := (walk_append hstay more).symm

end law

/-- From the node of every string that begins a name, the walk of every token
answers as the law says. Each string has a node of its own. -/
theorem walks_follow_the_names (names : List (List UInt8 × NameClose)) (shape : NameShape) :
    (∀ p, (∃ e ∈ names, p <+: e.1) →
      ∃ cursor, walk (.fromClosingNames names) (Trie.fromClosingNames names).root shape p =
          .Stay cursor ∧
        ∀ token, WalkLaw names shape p cursor token) ∧
      ∀ w w' n, walk (.fromClosingNames names) (Trie.fromClosingNames names).root shape w =
          .Stay n →
        walk (.fromClosingNames names) (Trie.fromClosingNames names).root shape w' = .Stay n →
          w = w' := by
  constructor
  · intro p hp
    obtain ⟨cursor, hcursor⟩ := follow_of_begins hp
    exact ⟨cursor, (walk_root_iff p cursor).mpr hcursor, walkLaw hcursor hp⟩
  · intro w w' n hw hw'
    exact Trie.follow_inj (Trie.fromClosingNames_represents names).wellFormed
      ((walk_root_iff w n).mp hw) ((walk_root_iff w' n).mp hw')

/-- The names `id` and `ids`, and the walks from the end of the first. -/
theorem a_name_begins_another :
    ∃ cursor, walk (.fromClosingNames [([105, 100], .Free), ([105, 100, 115], .MustFollow 46)])
        (Trie.fromClosingNames [([105, 100], .Free), ([105, 100, 115], .MustFollow 46)]).root
        .Plain [105, 100] = .Stay cursor ∧
      ∀ token, WalkLaw [([105, 100], .Free), ([105, 100, 115], .MustFollow 46)] .Plain [105, 100]
        cursor token :=
  (walks_follow_the_names [([105, 100], .Free), ([105, 100, 115], .MustFollow 46)] .Plain).1
    [105, 100] ⟨([105, 100], .Free), by simp, List.prefix_refl _⟩

end purecard.trie
