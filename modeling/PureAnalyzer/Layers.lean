-- Distances in a directed graph and its layers, one for each distance from a
-- start. A search that goes on from one layer to the unseen successors of it
-- finds them in turn.
import PureAnalyzer.DepthFirst
import Mathlib.Data.List.Nodup
import Mathlib.Order.Basic

namespace layers

open depthfirst

variable {α : Type} {succ : α → List α}

/-! ## Walks -/

/-- A walk of so many edges. -/
def Walk (succ : α → List α) : Nat → α → α → Prop
  | 0, v, w => v = w
  | n + 1, v, w => ∃ u, Walk succ n v u ∧ w ∈ succ u

/-- The least walk has so many edges. -/
def AtDistance (succ : α → List α) (v : α) (n : Nat) (w : α) : Prop :=
  Walk succ n v w ∧ ∀ m < n, ¬ Walk succ m v w

theorem walk_iff_reaches {v w : α} :
    (∃ n, Walk succ n v w) ↔ Relation.ReflTransGen (Edge succ) v w := by
  constructor
  · rintro ⟨n, h⟩
    induction n generalizing w with
    | zero =>
      obtain rfl : v = w := h
      exact .refl
    | succ n ih =>
      obtain ⟨u, hu, hw⟩ := h
      exact .tail (ih hu) hw
  · intro h
    induction h with
    | refl => exact ⟨0, rfl⟩
    | tail _ hedge ih =>
      obtain ⟨n, hn⟩ := ih
      exact ⟨n + 1, _, hn, hedge⟩

theorem exists_distance {v w : α} (h : Relation.ReflTransGen (Edge succ) v w) :
    ∃ n, AtDistance succ v n w := by
  classical
  have hwalk := walk_iff_reaches.mpr h
  exact ⟨Nat.find hwalk, Nat.find_spec hwalk, fun m hm => Nat.find_min hwalk hm⟩

theorem AtDistance.reaches {v w : α} {n : Nat} (h : AtDistance succ v n w) :
    Relation.ReflTransGen (Edge succ) v w := walk_iff_reaches.mp ⟨n, h.1⟩

/-- There is one distance. -/
theorem AtDistance.unique {v w : α} {m n : Nat} (hm : AtDistance succ v m w)
    (hn : AtDistance succ v n w) : m = n := by
  rcases Nat.lt_trichotomy m n with hlt | heq | hlt
  · exact absurd hm.1 (hn.2 m hlt)
  · exact heq
  · exact absurd hn.1 (hm.2 n hlt)

theorem atDistance_zero {v w : α} : AtDistance succ v 0 w ↔ v = w :=
  ⟨fun h => h.1, fun h => ⟨h, fun _ hm => absurd hm (Nat.not_lt_zero _)⟩⟩

/-- The next layer: the successors of this one that no walk has met. -/
theorem atDistance_succ {v w : α} {n : Nat} :
    AtDistance succ v (n + 1) w ↔
      (∃ u, AtDistance succ v n u ∧ w ∈ succ u) ∧ ∀ m ≤ n, ¬ Walk succ m v w := by
  constructor
  · rintro ⟨⟨u, hu, hw⟩, hleast⟩
    refine ⟨⟨u, ⟨hu, fun m hm hwalk => ?_⟩, hw⟩, fun m hm => hleast m (by omega)⟩
    exact hleast (m + 1) (by omega) ⟨u, hwalk, hw⟩
  · rintro ⟨⟨u, hu, hw⟩, hnone⟩
    exact ⟨⟨u, hu.1, hw⟩, fun m hm => hnone m (by omega)⟩

/-- No layer before this one is empty. -/
theorem AtDistance.below {v w : α} {n : Nat} (h : AtDistance succ v n w) :
    ∀ m ≤ n, ∃ u, AtDistance succ v m u := by
  induction n generalizing w with
  | zero =>
    intro m hm
    obtain rfl : m = 0 := by omega
    exact ⟨w, h⟩
  | succ n ih =>
    intro m hm
    by_cases heq : m = n + 1
    · rw [heq]
      exact ⟨w, h⟩
    · obtain ⟨⟨u, hu, -⟩, -⟩ := atDistance_succ.mp h
      exact ih hu m (by omega)

/-- A distance is less than the number of nodes that are reached. -/
theorem AtDistance.nodes {v w : α} {n : Nat} (h : AtDistance succ v n w) :
    ∃ l : List α, l.Nodup ∧ l.length = n + 1 ∧
      ∀ u ∈ l, ∃ m ≤ n, AtDistance succ v m u := by
  induction n generalizing w with
  | zero =>
    refine ⟨[w], List.nodup_singleton w, rfl, fun u hu => ?_⟩
    rw [List.mem_singleton.mp hu]
    exact ⟨0, Nat.le_refl 0, h⟩
  | succ n ih =>
    obtain ⟨⟨u, hu, -⟩, -⟩ := atDistance_succ.mp h
    obtain ⟨l, hnodup, hlen, hl⟩ := ih hu
    refine ⟨w :: l, List.nodup_cons.mpr ⟨fun hw => ?_, hnodup⟩, by simp [hlen], ?_⟩
    · obtain ⟨m, hm, hdist⟩ := hl w hw
      have := hdist.unique h
      omega
    · intro x hx
      rcases List.mem_cons.mp hx with rfl | hx
      · exact ⟨n + 1, Nat.le_refl _, h⟩
      · obtain ⟨m, hm, hdist⟩ := hl x hx
        exact ⟨m, by omega, hdist⟩

theorem exists_walk_le {v w : α} {n : Nat} :
    (∃ m ≤ n, Walk succ m v w) ↔ ∃ m ≤ n, AtDistance succ v m w := by
  constructor
  · rintro ⟨m, hm, hwalk⟩
    obtain ⟨k, hk⟩ := exists_distance (walk_iff_reaches.mp ⟨m, hwalk⟩)
    refine ⟨k, ?_, hk⟩
    by_contra hlt
    exact hk.2 m (by omega) hwalk
  · rintro ⟨m, hm, hdist⟩
    exact ⟨m, hm, hdist.1⟩

/-- Two graphs have the same layers as far as the nodes of the layers before
have the same successors. -/
theorem atDistance_congr {succ' : α → List α} {v : α} {n : Nat}
    (h : ∀ i < n, ∀ u, AtDistance succ v i u → succ u = succ' u) :
    ∀ i ≤ n, ∀ w, AtDistance succ v i w ↔ AtDistance succ' v i w := by
  induction n with
  | zero =>
    intro i hi w
    obtain rfl : i = 0 := by omega
    rw [atDistance_zero, atDistance_zero]
  | succ n ih =>
    have hbefore := ih fun i hi => h i (by omega)
    intro i hi w
    by_cases hlast : i = n + 1
    · have hmet : (∃ m ≤ n, Walk succ m v w) ↔ ∃ m ≤ n, Walk succ' m v w := by
        rw [exists_walk_le, exists_walk_le]
        exact exists_congr fun m => and_congr_right fun hm => hbefore m hm w
      have hedge : (∃ u, AtDistance succ v n u ∧ w ∈ succ u) ↔
          ∃ u, AtDistance succ' v n u ∧ w ∈ succ' u := by
        apply exists_congr
        intro u
        rw [← hbefore n (Nat.le_refl n) u]
        exact and_congr_right fun hu => by rw [h n (by omega) u hu]
      rw [hlast, atDistance_succ, atDistance_succ, hedge]
      apply and_congr_right
      intro _
      constructor
      · exact fun hnone m hm hwalk =>
          (hmet.mpr ⟨m, hm, hwalk⟩).elim fun k hk => hnone k hk.1 hk.2
      · exact fun hnone m hm hwalk =>
          (hmet.mp ⟨m, hm, hwalk⟩).elim fun k hk => hnone k hk.1 hk.2
    · exact hbefore i (by omega) w

/-! ## The frontier of a search -/

/-- The nodes that walks of at most so many edges lead to, and the last layer of
them. -/
structure Frontier (succ : α → List α) (v : α) (n : Nat) (seen current : List α) : Prop where
  seen : ∀ w, w ∈ seen ↔ ∃ m ≤ n, Walk succ m v w
  current : ∀ w, w ∈ current ↔ AtDistance succ v n w

theorem Frontier.start (succ : α → List α) (v : α) : Frontier succ v 0 [v] [v] := by
  refine ⟨fun w => ?_, fun w => ?_⟩
  · rw [List.mem_singleton]
    constructor
    · rintro rfl
      exact ⟨0, Nat.le_refl 0, rfl⟩
    · rintro ⟨m, hm, hwalk⟩
      obtain rfl : m = 0 := by omega
      exact (show v = w from hwalk).symm
  · rw [List.mem_singleton, atDistance_zero]
    exact eq_comm

theorem Frontier.next {v : α} {n : Nat} {seen current seen' next : List α}
    (h : Frontier succ v n seen current)
    (hnext : ∀ w, w ∈ next ↔ w ∉ seen ∧ ∃ u ∈ current, w ∈ succ u)
    (hseen : ∀ w, w ∈ seen' ↔ w ∈ seen ∨ w ∈ next) : Frontier succ v (n + 1) seen' next := by
  have hlayer : ∀ w, w ∈ next ↔ AtDistance succ v (n + 1) w := by
    intro w
    rw [hnext, atDistance_succ, h.seen, and_comm]
    constructor
    · rintro ⟨⟨u, hu, hw⟩, hnone⟩
      exact ⟨⟨u, (h.current u).mp hu, hw⟩, fun m hm hwalk => hnone ⟨m, hm, hwalk⟩⟩
    · rintro ⟨⟨u, hu, hw⟩, hnone⟩
      exact ⟨⟨u, (h.current u).mpr hu, hw⟩, fun ⟨m, hm, hwalk⟩ => hnone m hm hwalk⟩
  refine ⟨fun w => ?_, hlayer⟩
  rw [hseen, h.seen, hlayer]
  constructor
  · rintro (⟨m, hm, hwalk⟩ | hdist)
    · exact ⟨m, by omega, hwalk⟩
    · exact ⟨n + 1, Nat.le_refl _, hdist.1⟩
  · rintro ⟨m, hm, hwalk⟩
    by_cases hearly : ∃ k ≤ n, Walk succ k v w
    · exact .inl hearly
    · right
      have hlast : m = n + 1 := by
        by_contra hne
        exact hearly ⟨m, by omega, hwalk⟩
      rw [← hlast]
      exact ⟨hwalk, fun k hk hshort => hearly ⟨k, by omega, hshort⟩⟩

/-! ## Layers -/

/-- The first layers of a graph, each in order. -/
def Layers [LinearOrder α] (succ : α → List α) (v : α) (levels : List (List α)) : Prop :=
  ∀ n level, levels[n]? = some level →
    level ≠ [] ∧ level.Pairwise (· < ·) ∧ ∀ w, w ∈ level ↔ AtDistance succ v n w

section

variable [LinearOrder α] {v : α} {levels : List (List α)}

theorem Layers.start : Layers succ v [[v]] := by
  intro n level hlevel
  cases n with
  | zero =>
    obtain rfl := Option.some.inj hlevel
    exact ⟨nofun, List.pairwise_singleton _ _, (Frontier.start succ v).current⟩
  | succ n => cases hlevel

theorem Layers.snoc (h : Layers succ v levels) {next : List α} (hne : next ≠ [])
    (hsorted : next.Pairwise (· < ·))
    (hnext : ∀ w, w ∈ next ↔ AtDistance succ v levels.length w) :
    Layers succ v (levels ++ [next]) := by
  intro n level hlevel
  by_cases hn : n < levels.length
  · rw [List.getElem?_append_left hn] at hlevel
    exact h n level hlevel
  · rw [List.getElem?_append_right (by omega)] at hlevel
    have hlast : n = levels.length := by
      by_contra hne
      rw [List.getElem?_eq_none (by simp; omega)] at hlevel
      cases hlevel
    rw [hlast, Nat.sub_self] at hlevel
    obtain rfl := Option.some.inj hlevel
    rw [hlast]
    exact ⟨hne, hsorted, hnext⟩

theorem Layers.mem_iff (h : Layers succ v levels)
    (hall : ∀ n w, AtDistance succ v n w → n < levels.length) (w : α) :
    w ∈ levels.flatten ↔ Relation.ReflTransGen (Edge succ) v w := by
  rw [List.mem_flatten]
  constructor
  · rintro ⟨level, hlevel, hw⟩
    obtain ⟨n, hn⟩ := List.getElem?_of_mem hlevel
    exact (((h n level hn).2.2 w).mp hw).reaches
  · intro hreach
    obtain ⟨n, hdist⟩ := exists_distance hreach
    obtain ⟨level, hlevel⟩ : ∃ level, levels[n]? = some level :=
      ⟨_, List.getElem?_eq_getElem (hall n w hdist)⟩
    exact ⟨level, List.mem_of_getElem? hlevel, ((h n level hlevel).2.2 w).mpr hdist⟩

/-- Every node stands in one layer, once. -/
theorem Layers.nodup (h : Layers succ v levels) : levels.flatten.Nodup := by
  rw [List.nodup_flatten]
  refine ⟨fun level hlevel => ?_, ?_⟩
  · obtain ⟨n, hn⟩ := List.getElem?_of_mem hlevel
    exact (h n level hn).2.1.imp ne_of_lt
  · rw [List.pairwise_iff_getElem]
    intro i j hi hj hlt w hwi hwj
    have hdisti := ((h i _ (List.getElem?_eq_getElem hi)).2.2 w).mp hwi
    have hdistj := ((h j _ (List.getElem?_eq_getElem hj)).2.2 w).mp hwj
    have := hdisti.unique hdistj
    omega

end

end layers
