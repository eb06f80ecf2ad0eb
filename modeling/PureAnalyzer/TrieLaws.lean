-- What a trie built from names answers. The path of a string leads to a node
-- exactly when the string begins one of the names, and the node is terminal
-- exactly when the string is a name, with the close of the last pair that
-- spells it.
import Mathlib.Data.List.Induction
import PureAnalyzer.Trie

namespace purecard.trie

namespace Trie

/-! ## Paths -/

/-- The node that the edges of a string lead to. -/
def follow (t : Trie) (n : Nat) : List UInt8 → Option Nat
  | [] => some n
  | byte :: rest => (t.child n byte).bind fun c => t.follow c rest

theorem follow_append (t : Trie) (n : Nat) (u w : List UInt8) :
    t.follow n (u ++ w) = (t.follow n u).bind fun m => t.follow m w := by
  induction u generalizing n with
  | nil => rfl
  | cons b u ih =>
    simp only [List.cons_append, follow]
    cases t.child n b with
    | none => rfl
    | some c => exact ih c

theorem follow_snoc (t : Trie) (n : Nat) (u : List UInt8) (b : UInt8) :
    t.follow n (u ++ [b]) = (t.follow n u).bind fun m => t.child m b := by
  rw [follow_append]
  simp [follow]

/-- A child comes after its parent, and no node is the child of two. -/
structure WellFormed (t : Trie) : Prop where
  root : 0 < t.nodes.length
  child_lt : ∀ n b c, t.child n b = some c → n < c ∧ c < t.nodes.length
  child_inj : ∀ n b m b' c, t.child n b = some c → t.child m b' = some c → n = m ∧ b = b'

theorem follow_lt {t : Trie} (h : t.WellFormed) {u : List UInt8} {n m : Nat}
    (hn : n < t.nodes.length) (hu : t.follow n u = some m) : m < t.nodes.length := by
  induction u generalizing n with
  | nil => rw [follow, Option.some.injEq] at hu; omega
  | cons b u ih =>
    rw [follow, Option.bind_eq_some_iff] at hu
    obtain ⟨c, hc, hrest⟩ := hu
    exact ih (h.child_lt n b c hc).2 hrest

/-- A node is reached from the root by one string. -/
theorem follow_inj {t : Trie} (h : t.WellFormed) {u w : List UInt8} {n : Nat}
    (hu : t.follow 0 u = some n) (hw : t.follow 0 w = some n) : u = w := by
  induction u using List.reverseRecOn generalizing w n with
  | nil =>
    obtain rfl : 0 = n := by simpa [follow] using hu
    rcases List.eq_nil_or_concat w with rfl | ⟨w, b, rfl⟩
    · rfl
    · rw [List.concat_eq_append, follow_snoc, Option.bind_eq_some_iff] at hw
      obtain ⟨m, -, hm⟩ := hw
      exact absurd (h.child_lt m b 0 hm).1 (Nat.not_lt_zero m)
  | append_singleton u b ih =>
    rw [follow_snoc, Option.bind_eq_some_iff] at hu
    obtain ⟨m, hm, hchild⟩ := hu
    rcases List.eq_nil_or_concat w with rfl | ⟨w, b', rfl⟩
    · obtain rfl : 0 = n := by simpa [follow] using hw
      exact absurd (h.child_lt m b 0 hchild).1 (Nat.not_lt_zero m)
    · rw [List.concat_eq_append, follow_snoc, Option.bind_eq_some_iff] at hw
      obtain ⟨m', hm', hchild'⟩ := hw
      obtain ⟨rfl, rfl⟩ := h.child_inj m b m' b' n hchild hchild'
      rw [ih hm hm', List.concat_eq_append]

/-! ## A new edge -/

theorem lookup_edge (key : UInt8) (d : Nat) (edges : List (UInt8 × Nat)) (x : UInt8) :
    ((key, d) :: edges).lookup x = if x = key then some d else edges.lookup x := by
  by_cases hx : x = key
  · simp [hx]
  · rw [if_neg hx, List.lookup_cons, beq_eq_false_iff_ne.mpr hx]

theorem lookup_insertEdge (b : UInt8) (c : Nat) (edges : List (UInt8 × Nat)) (x : UInt8) :
    (insertEdge b c edges).lookup x = if x = b then some c else edges.lookup x := by
  induction edges with
  | nil => exact lookup_edge b c [] x
  | cons edge edges ih =>
    obtain ⟨key, d⟩ := edge
    unfold insertEdge
    split
    · next hlt =>
      rw [lookup_edge, ih, lookup_edge]
      by_cases hkey : x = key
      · have hx : x ≠ b := by rintro rfl; exact UInt8.lt_irrefl _ (hkey ▸ hlt)
        rw [if_pos hkey, if_neg hx, if_pos hkey]
      · rw [if_neg hkey, if_neg hkey]
    · rw [lookup_edge]

theorem node_of_le {t : Trie} {n : Nat} (h : t.nodes.length ≤ n) : t.node n = {} := by
  unfold node
  rw [List.getD_eq_getElem?_getD, List.getElem?_eq_none h]
  rfl

theorem child_of_le {t : Trie} {n : Nat} (h : t.nodes.length ≤ n) (b : UInt8) :
    t.child n b = none := by
  rw [child, node_of_le h]
  rfl

section descend

variable {t : Trie} {n : Nat} {b : UInt8}

/-- The nodes after a new leaf: the parent has one more edge. -/
theorem descend_node (hn : n < t.nodes.length) (hnone : t.child n b = none) (m : Nat) :
    (t.descend n b).1.node m =
      if m = n then { t.node n with next := insertEdge b t.nodes.length (t.node n).next }
      else t.node m := by
  unfold descend
  rw [hnone]
  simp only [node, List.getD_eq_getElem?_getD, List.getElem?_modify, List.getElem?_append]
  by_cases hmn : m = n
  · subst hmn
    simp [hn]
  · have hnm : ¬ n = m := fun h => hmn h.symm
    simp only [hmn, hnm, if_false, id_map']
    by_cases hlt : m < t.nodes.length
    · rw [if_pos hlt]
    · rw [if_neg hlt, List.getElem?_eq_none (Nat.le_of_not_lt hlt)]
      cases m - t.nodes.length <;> rfl

theorem descend_child (hn : n < t.nodes.length) (hnone : t.child n b = none) (m : Nat)
    (x : UInt8) :
    (t.descend n b).1.child m x =
      if m = n ∧ x = b then some t.nodes.length else t.child m x := by
  unfold child
  rw [descend_node hn hnone]
  by_cases hmn : m = n
  · subst hmn
    simp only [if_true, lookup_insertEdge, true_and]
  · simp [hmn]

theorem descend_length (hnone : t.child n b = none) :
    (t.descend n b).1.nodes.length = t.nodes.length + 1 := by
  unfold descend
  rw [hnone]
  simp

theorem descend_of_child {c : Nat} (h : t.child n b = some c) : t.descend n b = (t, c) := by
  unfold descend
  rw [h]

theorem descend_of_none (h : t.child n b = none) : (t.descend n b).2 = t.nodes.length := by
  unfold descend
  rw [h]

/-- A new leaf is no name yet. -/
theorem descend_marks (hn : n < t.nodes.length) (m : Nat) :
    (t.descend n b).1.isTerminal m = t.isTerminal m ∧
      (t.descend n b).1.closeAt m = t.closeAt m := by
  cases h : t.child n b with
  | some c => rw [descend_of_child h]; exact ⟨rfl, rfl⟩
  | none =>
    unfold isTerminal closeAt
    rw [descend_node hn h]
    split
    · next hmn => rw [hmn]; exact ⟨rfl, rfl⟩
    · exact ⟨rfl, rfl⟩

theorem descend_wellFormed (h : t.WellFormed) (hn : n < t.nodes.length) :
    (t.descend n b).1.WellFormed := by
  cases hc : t.child n b with
  | some c => rw [descend_of_child hc]; exact h
  | none =>
    have hlen := descend_length hc
    refine ⟨by omega, fun m x c hchild => ?_, fun m x m' x' c hchild hchild' => ?_⟩
    · rw [descend_child hn hc] at hchild
      split at hchild
      · next hnew =>
        obtain rfl := Option.some.inj hchild
        omega
      · have := h.child_lt m x c hchild
        omega
    · rw [descend_child hn hc] at hchild hchild'
      split at hchild
      · next hnew =>
        obtain rfl := Option.some.inj hchild
        split at hchild'
        · next hnew' => exact ⟨hnew.1.trans hnew'.1.symm, hnew.2.trans hnew'.2.symm⟩
        · have := h.child_lt m' x' _ hchild'
          omega
      · split at hchild'
        · obtain rfl := Option.some.inj hchild'
          have := h.child_lt m x _ hchild
          omega
        · exact h.child_inj m x m' x' c hchild hchild'

/-- One more path leads to a node: the path of the parent and the byte. -/
theorem follow_descend (h : t.WellFormed) {w : List UInt8} (hw : t.follow 0 w = some n)
    (u : List UInt8) :
    (t.descend n b).1.follow 0 u =
      if u = w ++ [b] then some (t.descend n b).2 else t.follow 0 u := by
  have hn : n < t.nodes.length := follow_lt h h.root hw
  cases hc : t.child n b with
  | some c =>
    rw [descend_of_child hc]
    split
    · next hu => rw [hu, follow_snoc, hw]; exact hc
    · rfl
  | none =>
    rw [descend_of_none hc]
    induction u using List.reverseRecOn with
    | nil => simp [follow]
    | append_singleton u x ih =>
      rw [follow_snoc, ih, follow_snoc]
      by_cases hu : u = w ++ [b]
      · subst hu
        have hnew : (t.descend n b).1.child t.nodes.length x = none := by
          rw [descend_child hn hc, if_neg (by omega), child_of_le (Nat.le_refl _)]
        simp [hnew, follow_snoc, hw, hc]
      · rw [if_neg hu]
        cases hm : t.follow 0 u with
        | none =>
          have hne : ¬ u ++ [x] = w ++ [b] := by
            intro heq
            rw [(List.append_inj' heq rfl).1, hw] at hm
            cases hm
          rw [if_neg hne]
          rfl
        | some m =>
          simp only [Option.bind_some]
          rw [descend_child hn hc]
          by_cases hnew : m = n ∧ x = b
          · obtain ⟨rfl, rfl⟩ := hnew
            obtain rfl : u = w := follow_inj h hm hw
            rw [if_pos ⟨rfl, rfl⟩, if_pos rfl]
          · have hne : ¬ u ++ [x] = w ++ [b] := by
              intro heq
              obtain ⟨rfl, hx⟩ := List.append_inj' heq rfl
              rw [hw] at hm
              exact hnew ⟨(Option.some.inj hm).symm, List.singleton_inj.mp hx⟩
            rw [if_neg hnew, if_neg hne]

end descend

/-! ## A whole name -/

/-- From `t` to `u`, the paths of a name were added, and no mark changed. -/
structure Extends (t u : Trie) (name : List UInt8) : Prop where
  wellFormed : u.WellFormed
  keeps : ∀ w n, t.follow 0 w = some n → u.follow 0 w = some n
  paths : ∀ w n, u.follow 0 w = some n →
    t.follow 0 w = some n ∨ (w <+: name ∧ t.nodes.length ≤ n)
  marks : ∀ n, u.isTerminal n = t.isTerminal n ∧ u.closeAt n = t.closeAt n
  grows : t.nodes.length ≤ u.nodes.length

theorem descend_extends {t : Trie} (h : t.WellFormed) {w : List UInt8} {n : Nat}
    (hw : t.follow 0 w = some n) (b : UInt8) :
    Extends t (t.descend n b).1 (w ++ [b]) := by
  have hn : n < t.nodes.length := follow_lt h h.root hw
  refine ⟨descend_wellFormed h hn, fun u m hu => ?_, fun u m hu => ?_, descend_marks hn, ?_⟩
  · rw [follow_descend h hw]
    split
    · next heq =>
      rw [heq, follow_snoc, hw] at hu
      rw [descend_of_child hu]
    · exact hu
  · rw [follow_descend h hw] at hu
    split at hu
    · next heq =>
      cases hc : t.child n b with
      | some c =>
        refine .inl ?_
        rw [descend_of_child hc] at hu
        rw [heq, follow_snoc, hw, ← hu]
        exact hc
      | none =>
        rw [descend_of_none hc] at hu
        exact .inr ⟨heq ▸ List.prefix_rfl, Nat.le_of_eq (Option.some.inj hu)⟩
    · exact .inl hu
  · cases hc : t.child n b with
    | some c => exact Nat.le_of_eq (by rw [descend_of_child hc])
    | none => rw [descend_length hc]; exact Nat.le_succ _

theorem Extends.trans {t u v : Trie} {pre name : List UInt8} (h : Extends t u pre)
    (k : Extends u v name) (hpre : pre <+: name) : Extends t v name := by
  refine ⟨k.wellFormed, fun w n hw => k.keeps w n (h.keeps w n hw), fun w n hw => ?_,
    fun n => ?_, Nat.le_trans h.grows k.grows⟩
  · rcases k.paths w n hw with hu | ⟨hname, hn⟩
    · rcases h.paths w n hu with ht | ⟨hw', hn⟩
      · exact .inl ht
      · exact .inr ⟨hw'.trans hpre, hn⟩
    · exact .inr ⟨hname, Nat.le_trans h.grows hn⟩
  · rw [(k.marks n).1, (k.marks n).2]
    exact h.marks n

theorem extend_extends {t : Trie} (h : t.WellFormed) {w : List UInt8} {n : Nat}
    (hw : t.follow 0 w = some n) (rest : List UInt8) :
    Extends t (t.extend n rest).1 (w ++ rest) ∧
      (t.extend n rest).1.follow 0 (w ++ rest) = some (t.extend n rest).2 := by
  induction rest generalizing t n w with
  | nil =>
    rw [List.append_nil]
    exact ⟨⟨h, fun _ _ hu => hu, fun _ _ hu => .inl hu, fun _ => ⟨rfl, rfl⟩, Nat.le_refl _⟩, hw⟩
  | cons b rest ih =>
    have hstep := descend_extends h hw b
    have hnext : (t.descend n b).1.follow 0 (w ++ [b]) = some (t.descend n b).2 := by
      rw [follow_descend h hw, if_pos rfl]
    obtain ⟨hrest, hend⟩ := ih hstep.wellFormed hnext
    rw [List.append_assoc, List.singleton_append] at hrest hend
    refine ⟨hstep.trans hrest ?_, hend⟩
    exact ⟨rest, by simp⟩

section insert

variable {t : Trie} {name : List UInt8} {close : NameClose}

/-- A name marks the node it ends at and no other. -/
theorem insert_node (h : t.WellFormed) (n : Nat) :
    (t.insert name close).node n =
      if n = (t.extend 0 name).2 then
        { (t.extend 0 name).1.node n with terminal := true, close := close }
      else (t.extend 0 name).1.node n := by
  obtain ⟨hext, hend⟩ := extend_extends h (w := []) rfl name
  have hlt := follow_lt hext.wellFormed hext.wellFormed.root hend
  unfold insert node
  simp only [List.getD_eq_getElem?_getD, List.getElem?_modify]
  by_cases hn : n = (t.extend 0 name).2
  · subst hn
    simp [hlt]
  · have hne : ¬ (t.extend 0 name).2 = n := fun h => hn h.symm
    simp only [hn, hne, if_false, id_map']

theorem insert_child (h : t.WellFormed) (n : Nat) (b : UInt8) :
    (t.insert name close).child n b = (t.extend 0 name).1.child n b := by
  unfold child
  rw [insert_node h]
  split <;> rfl

theorem insert_follow (h : t.WellFormed) (n : Nat) (w : List UInt8) :
    (t.insert name close).follow n w = (t.extend 0 name).1.follow n w := by
  induction w generalizing n with
  | nil => rfl
  | cons b w ih =>
    rw [follow, follow, insert_child h]
    simp only [ih]

theorem insert_wellFormed (h : t.WellFormed) : (t.insert name close).WellFormed := by
  obtain ⟨hext, -⟩ := extend_extends h (w := []) rfl name
  have hlen : (t.insert name close).nodes.length = (t.extend 0 name).1.nodes.length := by
    simp [insert]
  refine ⟨?_, fun n b c => ?_, fun n b m b' c => ?_⟩
  · rw [hlen]; exact hext.wellFormed.root
  · rw [insert_child h, hlen]; exact hext.wellFormed.child_lt n b c
  · rw [insert_child h, insert_child h]; exact hext.wellFormed.child_inj n b m b' c

end insert

/-! ## The names of a trie -/

/-- The close of the last pair that spells the name. -/
def lastClose (names : List (List UInt8 × NameClose)) (name : List UInt8) : Option NameClose :=
  names.reverse.lookup name

theorem lastClose_snoc (names : List (List UInt8 × NameClose)) (name w : List UInt8)
    (close : NameClose) :
    lastClose (names ++ [(name, close)]) w = if w = name then some close else lastClose names w := by
  unfold lastClose
  rw [List.reverse_append]
  by_cases hw : w = name
  · simp [hw]
  · have hne : (w == name) = false := beq_eq_false_iff_ne.mpr hw
    simp [List.lookup_cons, hne, hw]

theorem lastClose_isSome_iff (names : List (List UInt8 × NameClose)) (name : List UInt8) :
    (lastClose names name).isSome = true ↔ ∃ e ∈ names, e.1 = name := by
  unfold lastClose
  rw [List.lookup_isSome_iff]
  simp only [List.mem_reverse, beq_iff_eq]
  exact exists_congr fun e => and_congr_right fun _ => eq_comm

/-- A trie that holds the names. -/
structure Represents (t : Trie) (names : List (List UInt8 × NameClose)) : Prop where
  wellFormed : t.WellFormed
  paths : ∀ w, (t.follow 0 w).isSome = true ↔ w = [] ∨ ∃ e ∈ names, w <+: e.1
  marks : ∀ w n, t.follow 0 w = some n →
    t.isTerminal n = (lastClose names w).isSome ∧ t.closeAt n = (lastClose names w).getD .Free

theorem insert_represents {t : Trie} {names : List (List UInt8 × NameClose)}
    (h : Represents t names) (name : List UInt8) (close : NameClose) :
    Represents (t.insert name close) (names ++ [(name, close)]) := by
  obtain ⟨hext, hend⟩ := extend_extends h.wellFormed (w := []) rfl name
  rw [List.nil_append] at hext hend
  refine ⟨insert_wellFormed h.wellFormed, fun w => ?_, fun w n hw => ?_⟩
  · rw [insert_follow h.wellFormed]
    constructor
    · intro hsome
      obtain ⟨n, hn⟩ := Option.isSome_iff_exists.mp hsome
      rcases hext.paths w n hn with hold | ⟨hname, -⟩
      · rcases (h.paths w).mp (by rw [hold]; rfl) with hnil | ⟨e, he, hpre⟩
        · exact .inl hnil
        · exact .inr ⟨e, List.mem_append_left _ he, hpre⟩
      · exact .inr ⟨(name, close), by simp, hname⟩
    · rintro (rfl | ⟨e, he, hpre⟩)
      · rfl
      · rcases List.mem_append.mp he with hold | hnew
        · have hsome := (h.paths w).mpr (.inr ⟨e, hold, hpre⟩)
          obtain ⟨n, hn⟩ := Option.isSome_iff_exists.mp hsome
          rw [hext.keeps w n hn]
          rfl
        · obtain rfl := List.mem_singleton.mp hnew
          obtain ⟨rest, rfl⟩ := hpre
          rw [follow_append, Option.bind_eq_some_iff] at hend
          obtain ⟨n, hn, -⟩ := hend
          rw [hn]
          rfl
  · rw [insert_follow h.wellFormed] at hw
    unfold isTerminal closeAt
    rw [insert_node h.wellFormed, lastClose_snoc]
    by_cases hname : w = name
    · subst hname
      rw [hend] at hw
      obtain rfl := Option.some.inj hw
      simp
    · have hne : ¬ n = (t.extend 0 name).2 := by
        rintro rfl
        exact hname (follow_inj hext.wellFormed hw hend)
      rw [if_neg hne, if_neg hname]
      have hmarks := hext.marks n
      unfold isTerminal closeAt at hmarks
      rw [hmarks.1, hmarks.2]
      rcases hext.paths w n hw with hold | ⟨-, hn⟩
      · exact h.marks w n hold
      · have hnone : lastClose names w = none := by
          by_contra hsome
          obtain ⟨e, he, rfl⟩ := (lastClose_isSome_iff names w).mp
            (Option.isSome_iff_ne_none.mpr hsome)
          have hpath := (h.paths e.1).mpr (.inr ⟨e, he, List.prefix_rfl⟩)
          obtain ⟨m, hm⟩ := Option.isSome_iff_exists.mp hpath
          have hlt := follow_lt h.wellFormed h.wellFormed.root hm
          rw [hext.keeps _ m hm, Option.some.injEq] at hw
          omega
        rw [node_of_le hn, hnone]
        exact ⟨rfl, rfl⟩

theorem foldl_represents {names done : List (List UInt8 × NameClose)} {t : Trie}
    (h : Represents t done) :
    Represents (names.foldl (fun t (name, close) => t.insert name close) t) (done ++ names) := by
  induction names generalizing t done with
  | nil => simpa using h
  | cons e names ih =>
    rw [List.append_cons]
    exact ih (insert_represents h e.1 e.2)

theorem empty_represents : Represents ⟨[{}]⟩ [] := by
  have hchild : ∀ n b, (⟨[{}]⟩ : Trie).child n b = none := by
    intro n b
    cases n <;> rfl
  refine ⟨⟨by decide, ?_, ?_⟩, fun w => ?_, fun w n hw => ?_⟩
  · intro n b c h
    rw [hchild] at h
    cases h
  · intro n b m b' c h
    rw [hchild] at h
    cases h
  · cases w with
    | nil => simp [follow]
    | cons b w => simp [follow, hchild]
  · cases w with
    | nil =>
      obtain rfl : 0 = n := by simpa [follow] using hw
      exact ⟨rfl, rfl⟩
    | cons b w =>
      rw [follow, hchild] at hw
      cases hw

/-- A trie holds the names that it is built from. -/
theorem fromClosingNames_represents (names : List (List UInt8 × NameClose)) :
    Represents (fromClosingNames names) names :=
  foldl_represents empty_represents

end Trie

/-! ## The walk -/

/-- A walk stays exactly where the edges lead. -/
theorem walk_stay_iff (t : Trie) (n m : Nat) (shape : NameShape) (bytes : List UInt8) :
    walk t n shape bytes = .Stay m ↔ t.follow n bytes = some m := by
  induction bytes generalizing n with
  | nil => simp [walk, Trie.follow]
  | cons b bytes ih =>
    unfold walk Trie.follow
    cases t.child n b with
    | some c => exact ih c
    | none =>
      dsimp only
      split <;> simp

end purecard.trie
