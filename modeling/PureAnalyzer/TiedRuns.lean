-- Runs over a list that is sorted by a key, where elements of one key keep
-- their order. When two elements of one key always clash, the order of the list
-- reaches the result only through the first two elements of the least key that
-- two of them share.
import Mathlib.Data.List.Induction
import Mathlib.Data.List.Sort

namespace tied

variable {C K S E : Type} [LinearOrder K] (key : C → K) (step : S → C → Except E S) (start : S)

def sort (l : List C) : List C := l.insertionSort fun a b => key a ≤ key b

/-- The elements before a key, in the order of their keys. -/
def below (k : K) (l : List C) : List C := (sort key l).filter fun c => key c < k

/-- Two elements at different places of the list. -/
def Two (l : List C) (c d : C) : Prop := ∃ rest, l.Perm (c :: d :: rest)

/-- An element is refused when one of its key was taken. -/
def Clashing (P : C → Prop) : Prop :=
  ∀ (l : List C) (s : S) (c d : C), (∀ x ∈ l, P x) → l.foldlM step start = .ok s → c ∈ l → P d →
    key c = key d → ∃ e, step s d = .error e

/-! ## The sorted list -/

section sorted

variable {key}

def Sorted (key : C → K) (l : List C) : Prop := l.Pairwise fun a b => key a ≤ key b

theorem sort_perm (l : List C) : (sort key l).Perm l := List.perm_insertionSort _ l

theorem sort_sorted (l : List C) : Sorted key (sort key l) := by
  have htotal : Std.Total fun a b : C => key a ≤ key b := ⟨fun a b => le_total (key a) (key b)⟩
  have htrans : IsTrans C fun a b => key a ≤ key b := ⟨fun _ _ _ => le_trans⟩
  exact List.pairwise_insertionSort _ l

/-- The elements of a key keep their order. -/
theorem sort_filter (k : K) (l : List C) :
    (sort key l).filter (fun c => key c = k) = l.filter fun c => key c = k := by
  have hequal : (l.filter fun c => key c = k).Pairwise fun a b => key a ≤ key b := by
    refine List.pairwise_of_forall_mem_list fun a ha b hb => ?_
    have hka := of_decide_eq_true (List.mem_filter.mp ha).2
    have hkb := of_decide_eq_true (List.mem_filter.mp hb).2
    exact (hka.trans hkb.symm).le
  have hsub := (List.sublist_insertionSort hequal List.filter_sublist).filter
    fun c => decide (key c = k)
  rw [List.filter_filter] at hsub
  simp only [Bool.and_self] at hsub
  exact (hsub.eq_of_length ((sort_perm l).filter _).length_eq.symm).symm

theorem sorted_split (k : K) {l : List C} (h : Sorted key l) :
    l = (l.filter fun c => key c < k) ++ (l.filter fun c => key c = k) ++
      l.filter fun c => k < key c := by
  induction l with
  | nil => rfl
  | cons c l ih =>
    obtain ⟨hc, hl⟩ := List.pairwise_cons.mp h
    have hrest := ih hl
    rcases lt_trichotomy (key c) k with hlt | heq | hgt
    · rw [List.filter_cons_of_pos (by simpa using hlt),
        List.filter_cons_of_neg (by simpa using hlt.ne),
        List.filter_cons_of_neg (by simpa using hlt.le)]
      exact congrArg (c :: ·) hrest
    · have hnone : (l.filter fun c => key c < k) = [] := by
        rw [List.filter_eq_nil_iff]
        intro d hd
        simpa [← heq] using hc d hd
      rw [hnone] at hrest
      rw [List.filter_cons_of_neg (by simpa using heq.ge),
        List.filter_cons_of_pos (by simpa using heq),
        List.filter_cons_of_neg (by simpa using heq.le), hnone]
      exact congrArg (c :: ·) hrest
    · have hnone : (l.filter fun c => key c < k) = [] := by
        rw [List.filter_eq_nil_iff]
        intro d hd
        simpa using hgt.le.trans (hc d hd)
      have hnone' : (l.filter fun c => key c = k) = [] := by
        rw [List.filter_eq_nil_iff]
        intro d hd
        simpa using (hgt.trans_le (hc d hd)).ne'
      rw [hnone, hnone'] at hrest
      rw [List.filter_cons_of_neg (by simpa using hgt.le),
        List.filter_cons_of_neg (by simpa using hgt.ne'),
        List.filter_cons_of_pos (by simpa using hgt), hnone, hnone']
      exact congrArg (c :: ·) hrest

/-- Sorted lists of the same elements are the same when no key is shared. -/
theorem sorted_unique {l m : List C} (hl : Sorted key l) (hm : Sorted key m) (hperm : l.Perm m)
    (hkeys : (l.map key).Nodup) : l = m := by
  refine hperm.eq_of_pairwise ?_ hl hm
  intro a b ha hb hab hba
  exact List.inj_on_of_nodup_map hkeys ha (hperm.mem_iff.mpr hb) (le_antisymm hab hba)

theorem below_perm {k : K} {l m : List C} (hperm : m.Perm l)
    (hkeys : ((below key k l).map key).Nodup) : below key k m = below key k l := by
  refine (sorted_unique ((sort_sorted l).filter _) ((sort_sorted m).filter _) ?_ hkeys).symm
  exact ((sort_perm l).trans (hperm.symm.trans (sort_perm m).symm)).filter _

/-- Before the least key that is shared no key is. -/
theorem first_tie {l : List C} (h : Sorted key l) (htie : ¬ (l.map key).Nodup) :
    ∃ k, ((l.filter fun c => key c < k).map key).Nodup ∧
      2 ≤ (l.filter fun c => key c = k).length := by
  induction l with
  | nil => exact absurd List.nodup_nil htie
  | cons c l ih =>
    obtain ⟨hc, hl⟩ := List.pairwise_cons.mp h
    by_cases hmem : key c ∈ l.map key
    · obtain ⟨d, hd, hkey⟩ := List.mem_map.mp hmem
      refine ⟨key c, ?_, ?_⟩
      · have hnone : ((c :: l).filter fun d => key d < key c) = [] := by
          rw [List.filter_eq_nil_iff]
          intro d hd
          rcases List.mem_cons.mp hd with rfl | hd
          · simp
          · simpa using hc d hd
        rw [hnone]
        exact List.nodup_nil
      · rw [List.filter_cons_of_pos (by simp), List.length_cons]
        have hone := List.length_pos_of_mem (List.mem_filter.mpr
          ⟨hd, decide_eq_true hkey⟩ : d ∈ l.filter fun d => key d = key c)
        omega
    · have hrest : ¬ (l.map key).Nodup := fun hnodup =>
        htie (List.nodup_cons.mpr ⟨hmem, hnodup⟩)
      obtain ⟨k, hnodup, htwo⟩ := ih hl hrest
      refine ⟨k, ?_, htwo.trans ((List.sublist_cons_self c l).filter _).length_le⟩
      by_cases hlt : key c < k
      · rw [List.filter_cons_of_pos (by simpa using hlt), List.map_cons, List.nodup_cons]
        exact ⟨fun hin => hmem ((List.filter_sublist.map key).subset hin), hnodup⟩
      · rwa [List.filter_cons_of_neg (by simpa using hlt)]

end sorted

/-! ## The run -/

section runs

variable {key step start} {P : C → Prop}

theorem run_error {l m : List C} {e : E} (h : l.foldlM step start = .error e) :
    (l ++ m).foldlM step start = .error e := by
  rw [List.foldlM_append, h]
  rfl

theorem run_ok {l m : List C} {s : S} (h : l.foldlM step start = .ok s) :
    (l ++ m).foldlM step start = m.foldlM step s := by
  rw [List.foldlM_append, h]
  rfl

omit [LinearOrder K] in
/-- A run that goes through shares no key. -/
theorem run_keys (hclash : Clashing key step start P) {l : List C} (hl : ∀ c ∈ l, P c) {s : S}
    (h : l.foldlM step start = .ok s) : (l.map key).Nodup := by
  induction l using List.reverseRecOn generalizing s with
  | nil => exact List.nodup_nil
  | append_singleton l d ih =>
    have hl' : ∀ c ∈ l, P c := fun c hc => hl c (List.mem_append_left _ hc)
    cases hrun : l.foldlM step start with
    | error e =>
      rw [run_error hrun] at h
      cases h
    | ok s' =>
      rw [run_ok hrun, List.foldlM_cons] at h
      rw [List.map_append, List.map_singleton, List.nodup_append]
      refine ⟨ih hl' hrun, List.nodup_singleton _, ?_⟩
      rintro k hk _ hd rfl
      obtain rfl := List.mem_singleton.mp hd
      obtain ⟨c, hc, hkey⟩ := List.mem_map.mp hk
      obtain ⟨e, he⟩ := hclash l s' c d hl' hrun hc (hl d (by simp)) hkey
      rw [he] at h
      cases h

/-- Where a key is shared and nothing before it clashes, the first two of it
decide. -/
theorem run_two (hclash : Clashing key step start P) {l : List C} (hl : ∀ c ∈ l, P c) {k : K}
    {s : S} (h : (below key k l).foldlM step start = .ok s) {c d : C} {rest : List C}
    (htied : (l.filter fun c => key c = k) = c :: d :: rest) :
    (sort key l).foldlM step start = [c, d].foldlM step s := by
  have hmem : ∀ x ∈ c :: d :: rest, P x ∧ key x = k := by
    intro x hx
    rw [← htied] at hx
    obtain ⟨hxl, hkey⟩ := List.mem_filter.mp hx
    exact ⟨hl x hxl, of_decide_eq_true hkey⟩
  obtain ⟨hc, hkc⟩ := hmem c List.mem_cons_self
  obtain ⟨hd, hkd⟩ := hmem d (by simp)
  have hbelow : ∀ x ∈ below key k l, P x := fun x hx =>
    hl x ((sort_perm l).mem_iff.mp (List.mem_filter.mp hx).1)
  rw [sorted_split k (sort_sorted l), sort_filter, htied, List.append_assoc]
  rw [run_ok (show (List.filter _ _).foldlM step start = .ok s from h)]
  rw [List.cons_append, List.cons_append, List.foldlM_cons, List.foldlM_cons]
  cases hfirst : step s c with
  | error e => rfl
  | ok s' =>
    have hrun : (below key k l ++ [c]).foldlM step start = .ok s' := by
      rw [run_ok h, List.foldlM_cons, hfirst]
      rfl
    obtain ⟨e, he⟩ := hclash _ s' c d (by
      intro x hx
      rcases List.mem_append.mp hx with hx | hx
      · exact hbelow x hx
      · rwa [List.mem_singleton.mp hx]) hrun (by simp) hd (hkc.trans hkd.symm)
    show (List.foldlM step s' (d :: _)) = List.foldlM step s' [d]
    rw [List.foldlM_cons, List.foldlM_cons, he]
    rfl

/-- The order of a list does not reach the run exactly when, of each key before
which nothing clashes, every two elements end the run in the same way. -/
theorem run_perm_iff (hclash : Clashing key step start P) {l : List C} (hl : ∀ c ∈ l, P c) :
    (∀ l', l'.Perm l → (sort key l').foldlM step start = (sort key l).foldlM step start) ↔
      ∀ k s, (below key k l).foldlM step start = .ok s → ∀ c d c' d', Two l c d → Two l c' d' →
        key c = k → key d = k → key c' = k → key d' = k →
          [c, d].foldlM step s = [c', d'].foldlM step s := by
  have hperm : ∀ {l' : List C}, l'.Perm l → ∀ c ∈ l', P c := fun hl' c hc =>
    hl c (hl'.mem_iff.mp hc)
  constructor
  · intro hsame k s hbelow
    have hkeys : ((below key k l).map key).Nodup :=
      run_keys hclash (fun x hx => hl x ((sort_perm l).mem_iff.mp (List.mem_filter.mp hx).1)) hbelow
    have hdecide : ∀ c d, Two l c d → key c = k → key d = k →
        (sort key l).foldlM step start = [c, d].foldlM step s := by
      rintro c d ⟨rest, htwo⟩ hc hd
      have hfilter : ((c :: d :: rest).filter fun c => key c = k) =
          c :: d :: rest.filter fun c => key c = k := by
        rw [List.filter_cons_of_pos (by simpa using hc),
          List.filter_cons_of_pos (by simpa using hd)]
      rw [← hsame _ htwo.symm]
      exact run_two hclash (hperm htwo.symm) (by rwa [below_perm htwo.symm hkeys]) hfilter
    intro c d c' d' htwo htwo' hc hd hc' hd'
    rw [← hdecide c d htwo hc hd, ← hdecide c' d' htwo' hc' hd']
  · intro hties l' hl'
    by_cases hkeys : (l.map key).Nodup
    · have hsorted : ((sort key l).map key).Nodup := ((sort_perm l).map key).nodup_iff.mpr hkeys
      rw [sorted_unique (sort_sorted l) (sort_sorted l')
        ((sort_perm l).trans (hl'.symm.trans (sort_perm l').symm)) hsorted]
    · have hsorted : ¬ ((sort key l).map key).Nodup := fun h =>
        hkeys (((sort_perm l).map key).nodup_iff.mp h)
      obtain ⟨k, hnodup, htied⟩ := first_tie (sort_sorted l) hsorted
      rw [sort_filter] at htied
      have hbelow : below key k l' = below key k l := below_perm hl' hnodup
      cases hrun : (below key k l).foldlM step start with
      | error e =>
        have herror : ∀ m : List C, (below key k m).foldlM step start = .error e →
            (sort key m).foldlM step start = .error e := by
          intro m hm
          rw [sorted_split k (sort_sorted m), List.append_assoc]
          exact run_error hm
        rw [herror l hrun, herror l' (by rwa [hbelow])]
      | ok s =>
        have hpair : ∀ m : List C, m.Perm l → ∃ c d rest,
            (m.filter fun c => key c = k) = c :: d :: rest ∧ Two l c d ∧ key c = k ∧ key d = k := by
          intro m hm
          have hlen : 2 ≤ (m.filter fun c => key c = k).length := by
            rwa [(hm.filter _).length_eq]
          match hfilter : m.filter fun c => key c = k, hlen with
          | c :: d :: rest, _ =>
            have hkey : ∀ x ∈ c :: d :: rest, key x = k := by
              intro x hx
              rw [← hfilter] at hx
              exact of_decide_eq_true (List.mem_filter.mp hx).2
            have hsplit := (List.filter_append_perm (fun c => decide (key c = k)) m).symm
            rw [hfilter] at hsplit
            exact ⟨c, d, rest, rfl, ⟨_, hm.symm.trans hsplit⟩, hkey c (by simp), hkey d (by simp)⟩
        obtain ⟨c, d, rest, hfilter, htwo, hc, hd⟩ := hpair l (List.Perm.refl l)
        obtain ⟨c', d', rest', hfilter', htwo', hc', hd'⟩ := hpair l' hl'
        rw [run_two hclash hl hrun hfilter,
          run_two hclash (hperm hl') (by rwa [hbelow]) hfilter']
        exact (hties k s hrun c d c' d' htwo htwo' hc hd hc' hd').symm

end runs

end tied
