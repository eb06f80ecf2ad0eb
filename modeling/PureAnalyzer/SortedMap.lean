-- A map whose entries stand in the order of their keys, each key once.
import Mathlib.Order.Lattice

structure SortedMap (κ ν : Type) [LT κ] where
  entries : List (κ × ν)
  sorted : entries.Pairwise fun a b => a.1 < b.1

namespace SortedMap

variable {κ ν : Type} [LinearOrder κ]

def empty : SortedMap κ ν := ⟨[], .nil⟩

def get (m : SortedMap κ ν) (k : κ) : Option ν := (m.entries.find? (·.1 = k)).map Prod.snd

def len (m : SortedMap κ ν) : Nat := m.entries.length

/-- Puts an entry in its place, over the one that has its key. -/
def insertEntry (k : κ) (v : ν) : List (κ × ν) → List (κ × ν)
  | [] => [(k, v)]
  | e :: rest =>
    if k < e.1 then (k, v) :: e :: rest
    else if k = e.1 then (k, v) :: rest
    else e :: insertEntry k v rest

theorem mem_insertEntry {k : κ} {v : ν} {l : List (κ × ν)} {e : κ × ν}
    (h : e ∈ insertEntry k v l) : e = (k, v) ∨ e ∈ l := by
  induction l with
  | nil => exact .inl (List.mem_singleton.mp h)
  | cons a rest ih =>
    unfold insertEntry at h
    split at h
    · exact List.mem_cons.mp h
    · split at h
      · rcases List.mem_cons.mp h with rfl | h
        · exact .inl rfl
        · exact .inr (List.mem_cons_of_mem _ h)
      · rcases List.mem_cons.mp h with rfl | h
        · exact .inr List.mem_cons_self
        · exact (ih h).imp_right (List.mem_cons_of_mem _)

/-- An entry goes where it keeps the order. -/
theorem insertEntry_sorted (k : κ) (v : ν) {l : List (κ × ν)}
    (h : l.Pairwise fun a b => a.1 < b.1) :
    (insertEntry k v l).Pairwise fun a b => a.1 < b.1 := by
  induction l with
  | nil => exact List.pairwise_singleton _ _
  | cons e rest ih =>
    obtain ⟨he, hrest⟩ := List.pairwise_cons.mp h
    unfold insertEntry
    split_ifs with hlt heq
    · refine List.pairwise_cons.mpr ⟨fun a ha => ?_, h⟩
      rcases List.mem_cons.mp ha with rfl | ha
      · exact hlt
      · exact hlt.trans (he a ha)
    · subst heq
      exact List.pairwise_cons.mpr ⟨he, hrest⟩
    · refine List.pairwise_cons.mpr ⟨fun a ha => ?_, ih hrest⟩
      rcases mem_insertEntry ha with rfl | ha
      · exact lt_of_le_of_ne (not_lt.mp hlt) (Ne.symm heq)
      · exact he a ha

/-- Puts a value under a key, in place of the one that was there. -/
def insert (m : SortedMap κ ν) (k : κ) (v : ν) : SortedMap κ ν :=
  ⟨insertEntry k v m.entries, insertEntry_sorted k v m.sorted⟩

def remove (m : SortedMap κ ν) (k : κ) : SortedMap κ ν :=
  ⟨m.entries.filter (·.1 ≠ k), m.sorted.filter _⟩

/-- Changes every value and no key. -/
def mapValues {μ : Type} (m : SortedMap κ ν) (f : ν → μ) : SortedMap κ μ where
  entries := m.entries.map fun e => (e.1, f e.2)
  sorted := List.pairwise_map.mpr m.sorted

/-- Keeps the entries whose value goes over to another one. -/
def filterMapValues {μ : Type} (m : SortedMap κ ν) (f : ν → Option μ) : SortedMap κ μ where
  entries := m.entries.filterMap fun e => (f e.2).map fun v => (e.1, v)
  sorted := by
    rw [List.pairwise_filterMap]
    refine m.sorted.imp fun {a b} hlt => ?_
    intro x hx y hy
    obtain ⟨v, -, rfl⟩ := Option.map_eq_some_iff.mp hx
    obtain ⟨w, -, rfl⟩ := Option.map_eq_some_iff.mp hy
    exact hlt

/-- An entry is found under its key. -/
theorem get_of_mem {m : SortedMap κ ν} {e : κ × ν} (h : e ∈ m.entries) : m.get e.1 = some e.2 := by
  obtain ⟨entries, sorted⟩ := m
  replace h : e ∈ entries := h
  show (entries.find? (·.1 = e.1)).map Prod.snd = some e.2
  induction entries with
  | nil => cases h
  | cons a rest ih =>
    obtain ⟨ha, hrest⟩ := List.pairwise_cons.mp sorted
    rcases List.mem_cons.mp h with rfl | h
    · simp
    · rw [List.find?_cons_of_neg (by simpa using (ha e h).ne)]
      exact ih hrest h

theorem mem_of_get {m : SortedMap κ ν} {k : κ} {v : ν} (h : m.get k = some v) :
    (k, v) ∈ m.entries := by
  obtain ⟨e, he, rfl⟩ := Option.map_eq_some_iff.mp h
  have hkey := List.find?_some he
  rw [decide_eq_true_eq] at hkey
  rw [← hkey]
  exact List.mem_of_find?_eq_some he

theorem get_eq_some_iff {m : SortedMap κ ν} {k : κ} {v : ν} :
    m.get k = some v ↔ (k, v) ∈ m.entries := ⟨mem_of_get, fun h => get_of_mem h⟩

theorem get_empty (k : κ) : (empty : SortedMap κ ν).get k = none := rfl

theorem find_insertEntry (k : κ) (v : ν) (l : List (κ × ν)) (j : κ) :
    (insertEntry k v l).find? (·.1 = j) = if j = k then some (k, v) else l.find? (·.1 = j) := by
  induction l with
  | nil =>
    by_cases hj : j = k
    · simp [insertEntry, hj]
    · simp [insertEntry, hj, Ne.symm hj]
  | cons e rest ih =>
    unfold insertEntry
    by_cases hlt : k < e.1
    · rw [if_pos hlt]
      by_cases hj : j = k
      · rw [if_pos hj, List.find?_cons_of_pos (by simp [hj])]
      · rw [if_neg hj, List.find?_cons_of_neg (by simpa using Ne.symm hj)]
    rw [if_neg hlt]
    by_cases heq : k = e.1
    · rw [if_pos heq]
      by_cases hj : j = k
      · rw [if_pos hj, List.find?_cons_of_pos (by simp [hj])]
      · rw [if_neg hj, List.find?_cons_of_neg (by simpa using Ne.symm hj),
          List.find?_cons_of_neg (by simpa [← heq] using Ne.symm hj)]
    · rw [if_neg heq, List.find?_cons, List.find?_cons, ih]
      by_cases hj : j = k
      · have hskip : decide (e.1 = j) = false := by simpa [hj] using Ne.symm heq
        simp only [if_pos hj, hskip]
      · simp only [if_neg hj]

/-- An insertion changes what its key has and nothing else. -/
theorem get_insert (m : SortedMap κ ν) (k : κ) (v : ν) (j : κ) :
    (m.insert k v).get j = if j = k then some v else m.get j := by
  show ((insertEntry k v m.entries).find? (·.1 = j)).map Prod.snd = _
  rw [find_insertEntry]
  split_ifs <;> rfl

/-- A removal changes what its key has and nothing else. -/
theorem get_remove (m : SortedMap κ ν) (k j : κ) :
    (m.remove k).get j = if j = k then none else m.get j := by
  show ((m.entries.filter (·.1 ≠ k)).find? (·.1 = j)).map Prod.snd = _
  rw [List.find?_filter]
  by_cases hj : j = k
  · rw [if_pos hj, Option.map_eq_none_iff, List.find?_eq_none]
    intro e _
    simp only [decide_eq_true_eq, not_and]
    rintro hne rfl
    exact hne hj
  · rw [if_neg hj]
    have hsame : (fun e : κ × ν => decide (decide (e.1 ≠ k) = true ∧ decide (e.1 = j) = true)) =
        fun e => decide (e.1 = j) := by
      funext e
      by_cases he : e.1 = j
      · simp [he, hj]
      · simp [he]
    rw [hsame]
    rfl

theorem get_mapValues {μ : Type} (m : SortedMap κ ν) (f : ν → μ) (k : κ) :
    (m.mapValues f).get k = (m.get k).map f := by
  show ((m.entries.map fun e => (e.1, f e.2)).find? (·.1 = k)).map Prod.snd = _
  rw [List.find?_map, Option.map_map]
  unfold get
  rw [Option.map_map]
  rfl

theorem get_filterMapValues {μ : Type} (m : SortedMap κ ν) (f : ν → Option μ) (k : κ) :
    (m.filterMapValues f).get k = (m.get k).bind f := by
  ext v
  rw [get_eq_some_iff, Option.bind_eq_some_iff]
  constructor
  · intro h
    obtain ⟨e, he, hv⟩ := List.mem_filterMap.mp h
    obtain ⟨w, hw, heq⟩ := Option.map_eq_some_iff.mp hv
    obtain ⟨rfl, rfl⟩ := Prod.mk.inj heq
    exact ⟨e.2, get_of_mem he, hw⟩
  · rintro ⟨u, hu, hv⟩
    apply List.mem_filterMap.mpr
    exact ⟨(k, u), mem_of_get hu, by rw [hv]; rfl⟩

theorem mem_keys {m : SortedMap κ ν} {k : κ} :
    k ∈ m.entries.map Prod.fst ↔ (m.get k).isSome = true := by
  rw [List.mem_map, Option.isSome_iff_exists]
  constructor
  · rintro ⟨e, he, rfl⟩
    exact ⟨e.2, get_of_mem he⟩
  · rintro ⟨v, hv⟩
    exact ⟨(k, v), mem_of_get hv, rfl⟩

theorem ext {m m' : SortedMap κ ν} (h : m.entries = m'.entries) : m = m' := by
  obtain ⟨entries, sorted⟩ := m
  obtain ⟨entries', sorted'⟩ := m'
  obtain rfl : entries = entries' := h
  rfl

/-- Two maps with the same values under the same keys are one map. -/
theorem ext_get {m m' : SortedMap κ ν} (h : ∀ k v, m.get k = some v ↔ m'.get k = some v) :
    m = m' := by
  have hnodup (m : SortedMap κ ν) : m.entries.Nodup := m.sorted.imp fun hlt heq => by
    rw [heq] at hlt
    exact lt_irrefl _ hlt
  have hperm : m.entries.Perm m'.entries := by
    rw [List.perm_ext_iff_of_nodup (hnodup m) (hnodup m')]
    intro e
    rw [← get_eq_some_iff, ← get_eq_some_iff]
    exact h e.1 e.2
  refine ext (hperm.eq_of_pairwise (fun a b _ _ hab hba => ?_) m.sorted m'.sorted)
  exact absurd (hab.trans hba) (lt_irrefl _)

theorem insertEntry_last {k : κ} {v : ν} {l : List (κ × ν)} (h : ∀ e ∈ l, e.1 < k) :
    insertEntry k v l = l ++ [(k, v)] := by
  induction l with
  | nil => rfl
  | cons e rest ih =>
    have hlt := h e List.mem_cons_self
    rw [insertEntry, if_neg (not_lt.mpr hlt.le), if_neg hlt.ne',
      ih fun e' he' => h e' (List.mem_cons_of_mem _ he')]
    rfl

/-- Entries that are collected in order end up behind one another. -/
theorem collect_behind (m : SortedMap κ ν) {l : List (κ × ν)}
    (h : (m.entries ++ l).Pairwise fun a b => a.1 < b.1) :
    (l.foldl (fun collected e => collected.insert e.1 e.2) m).entries = m.entries ++ l := by
  induction l generalizing m with
  | nil => exact (List.append_nil _).symm
  | cons e l ih =>
    have hlast : (m.insert e.1 e.2).entries = m.entries ++ [e] := by
      refine insertEntry_last fun a ha => ?_
      exact (List.pairwise_append.mp h).2.2 a ha e List.mem_cons_self
    have hcons : (m.insert e.1 e.2).entries ++ l = m.entries ++ e :: l := by
      rw [hlast, List.append_assoc, List.singleton_append]
    rw [List.foldl_cons, ih (m.insert e.1 e.2) (by rwa [hcons]), hcons]

/-- The entries collected in their order are the map again. -/
theorem collect_entries (m : SortedMap κ ν) :
    m.entries.foldl (fun collected e => collected.insert e.1 e.2) empty = m :=
  ext (collect_behind empty m.sorted)

/-! ## Maps from lists -/

/-- The map has the entries of the list, whose keys are different, and no others. -/
structure Holds (m : SortedMap κ ν) (l : List (κ × ν)) : Prop where
  once : (l.map Prod.fst).Nodup
  same : ∀ k v, m.get k = some v ↔ (k, v) ∈ l

theorem Holds.empty : Holds (empty : SortedMap κ ν) [] := by
  refine ⟨List.nodup_nil, fun k v => ?_⟩
  simp [get_empty]

/-- A list of entries decides the map, in whatever order it is. -/
theorem Holds.unique {m m' : SortedMap κ ν} {l : List (κ × ν)} (h : Holds m l) (h' : Holds m' l) :
    m = m' :=
  ext_get fun k v => (h.same k v).trans (h'.same k v).symm

theorem Holds.absent_iff {m : SortedMap κ ν} {l : List (κ × ν)} (h : Holds m l) {k : κ} :
    m.get k = none ↔ k ∉ l.map Prod.fst := by
  rw [← not_iff_not, not_not, ← ne_eq, Option.ne_none_iff_exists', List.mem_map]
  constructor
  · rintro ⟨v, hv⟩
    exact ⟨(k, v), (h.same k v).mp hv, rfl⟩
  · rintro ⟨e, he, rfl⟩
    exact ⟨e.2, (h.same _ _).mpr he⟩

/-- A new key adds its entry to the list. -/
theorem Holds.insert {m : SortedMap κ ν} {l : List (κ × ν)} (h : Holds m l) {k : κ}
    (hnew : m.get k = none) (v : ν) : Holds (m.insert k v) (l ++ [(k, v)]) := by
  have habsent := h.absent_iff.mp hnew
  refine ⟨?_, fun j w => ?_⟩
  · rw [List.map_append, List.map_singleton]
    refine List.nodup_append.mpr ⟨h.once, by simp, ?_⟩
    rintro a ha b hb rfl
    obtain rfl := List.mem_singleton.mp hb
    exact habsent ha
  · rw [get_insert, List.mem_append, List.mem_singleton]
    by_cases hj : j = k
    · subst hj
      have hno : (j, w) ∉ l := fun hmem => habsent (List.mem_map_of_mem hmem)
      simp [hno, eq_comm]
    · simp [hj, h.same]

end SortedMap
