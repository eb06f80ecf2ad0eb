-- Masks that are made, changed and combined in any order. A mask keeps to its
-- own ids as long as no copy brings it an id from past its end.
import PureAnalyzer.MaskViews

namespace purecard.mask

/-- A mask is added to the others, or one of them is changed. An id is a `u32`. -/
inductive Op where
  | withLen (len : Nat)
  | set (i : Nat) (id : UInt32)
  | clear (i : Nat) (id : UInt32)
  | clearAll (i : Nat)
  | intersect (i j : Nat)
  | copyFrom (i j : Nat)
deriving DecidableEq, Repr

/-- The mask `i` takes the mask `j`, where there are such masks. -/
def combine (f : BitMask → BitMask → BitMask) (masks : List BitMask) (i j : Nat) : List BitMask :=
  match masks[j]? with
  | none => masks
  | some other => masks.modify i (f · other)

def step (masks : List BitMask) : Op → List BitMask
  | .withLen len => masks ++ [BitMask.withLen len]
  | .set i id => masks.modify i (·.set id.toNat)
  | .clear i id => masks.modify i (·.clear id.toNat)
  | .clearAll i => masks.modify i BitMask.clearAll
  | .intersect i j => combine BitMask.intersect masks i j
  | .copyFrom i j => combine BitMask.copyFrom masks i j

def run (masks : List BitMask) (ops : List Op) : List BitMask := ops.foldl step masks

/-! ## What the masks promise -/

structure Faithful (masks : List BitMask) : Prop where
  clean : ∀ m ∈ masks, ∀ id, m.len ≤ id → m.bit id = false
  scanned : ∀ m ∈ masks, m.iterOnes.Pairwise (· < ·) ∧ ∀ id, id ∈ m.iterOnes ↔ m.test id = true
  intersected : ∀ m ∈ masks, ∀ other ∈ masks, m.len = other.len →
    ∀ id, (m.intersect other).test id = (m.test id && other.test id)
  copied : ∀ m ∈ masks, ∀ other ∈ masks, m.len = other.len → m.copyFrom other = other
  packed : ∀ m ∈ masks, ∀ buf, (m.packLeBytesInto buf).length = (m.len + 7) / 8 ∧
    ∀ id < m.len, ((m.packLeBytesInto buf).getD (id / 8) 0).getLsbD (id % 8) = m.test id

/-- The operand has no id from the end of the mask to the end of its last word. -/
def Fits (m other : BitMask) : Prop :=
  ∀ id, m.len ≤ id → id < WORD_BITS * divCeil m.len → other.test id = false

def Op.Fits (masks : List BitMask) : Op → Prop
  | .copyFrom i j => ∀ m ∈ masks[i]?, ∀ other ∈ masks[j]?, mask.Fits m other
  | _ => True

/-- Every copy of a run fits where it is made. -/
def Fitting (masks : List BitMask) : List Op → Prop
  | [] => True
  | op :: ops => op.Fits masks ∧ Fitting (step masks op) ops

/-! ## Copies -/

theorem getD_overlap_snd (ws vs : List (BitVec 64)) (i : Nat) :
    (overlap (fun _ v => v) ws vs).getD i 0 =
      if i < ws.length ∧ i < vs.length then vs.getD i 0 else ws.getD i 0 := by
  induction ws generalizing vs i with
  | nil => simp
  | cons w ws ih =>
    cases vs with
    | nil => simp [overlap]
    | cons v vs =>
      cases i with
      | zero => simp [overlap]
      | succ i => simpa [overlap] using ih vs i

namespace BitMask

theorem bit_copyFrom (m other : BitMask) (id : Nat) :
    (m.copyFrom other).bit id =
      if id / WORD_BITS < m.words.length ∧ id / WORD_BITS < other.words.length then other.bit id
      else m.bit id := by
  unfold bit copyFrom
  rw [getD_overlap_snd]
  split <;> rfl

theorem copyFrom_eq {m other : BitMask} (h : m.len = other.len) : m.copyFrom other = other := by
  have hlen : m.words.length = other.words.length := by rw [m.sized, other.sized, h]
  have hwords : overlap (fun _ v => v) m.words other.words = other.words := by
    refine List.ext_getElem (by rw [length_overlap, hlen]) fun i hi hi' => ?_
    have hget := getD_overlap_snd m.words other.words i
    rw [if_pos ⟨hlen ▸ hi', hi'⟩, List.getD_eq_getElem?_getD, List.getD_eq_getElem?_getD,
      List.getElem?_eq_getElem hi, List.getElem?_eq_getElem hi'] at hget
    exact hget
  obtain ⟨words, len, sized⟩ := other
  obtain ⟨words', len', sized'⟩ := m
  obtain rfl : len' = len := h
  unfold copyFrom
  congr

theorem bit_of_test {m : BitMask} (h : m.Clean) (id : Nat) : m.bit id = m.test id := by
  rw [test_eq]
  by_cases hid : id < m.len
  · rw [decide_eq_true hid, Bool.true_and]
  · rw [decide_eq_false hid, Bool.false_and, h id (Nat.le_of_not_lt hid)]

/-- A copy sets no bit past the end exactly when the operand fits. -/
theorem copyFrom_clean_iff {m other : BitMask} (hm : m.Clean) (ho : other.Clean) :
    (m.copyFrom other).Clean ↔ Fits m other := by
  have hspan : ∀ id, id < WORD_BITS * divCeil m.len ↔ id / WORD_BITS < m.words.length := by
    intro id
    rw [m.sized, Nat.div_lt_iff_lt_mul (by decide), Nat.mul_comm]
  constructor
  · intro h id hle hlt
    rw [← bit_of_test ho]
    by_cases hword : id / WORD_BITS < other.words.length
    · have hbit := h id hle
      rwa [bit_copyFrom, if_pos ⟨(hspan id).mp hlt, hword⟩] at hbit
    · exact bit_of_length_le other (Nat.le_of_not_lt hword)
  · intro h id hle
    rw [bit_copyFrom]
    split
    · next hboth =>
      rw [bit_of_test ho]
      exact h id hle ((hspan id).mpr hboth.1)
    · exact hm id hle

end BitMask

/-! ## One step -/

section steps

variable {masks : List BitMask} {P : BitMask → Prop}

theorem modify_all {f : BitMask → BitMask} (h : ∀ m ∈ masks, P m) (hf : ∀ m, P m → P (f m))
    (i : Nat) : ∀ m ∈ masks.modify i f, P m := by
  intro m hm
  obtain ⟨k, hk⟩ := List.getElem?_of_mem hm
  rw [List.getElem?_modify] at hk
  obtain ⟨m', hm', rfl⟩ := Option.map_eq_some_iff.mp hk
  have hall := h m' (List.mem_of_getElem? hm')
  split
  · exact hf m' hall
  · exact hall

theorem combine_all {f : BitMask → BitMask → BitMask} (h : ∀ m ∈ masks, P m)
    (hf : ∀ m other, P m → P other → P (f m other)) (i j : Nat) :
    ∀ m ∈ combine f masks i j, P m := by
  unfold combine
  cases hj : masks[j]? with
  | none => exact h
  | some other =>
    have hother := h other (List.mem_of_getElem? hj)
    exact modify_all h (fun m hm => hf m other hm hother) i

/-- The ids stay small, whatever is done. -/
theorem step_small (h : ∀ m ∈ masks, m.Small) (op : Op) : ∀ m ∈ step masks op, m.Small := by
  cases op with
  | withLen len =>
    intro m hm
    rcases List.mem_append.mp hm with hm | hm
    · exact h m hm
    · obtain rfl := List.mem_singleton.mp hm
      intro id _
      simp only [BitMask.bit, BitMask.withLen, List.getD_eq_getElem?_getD,
        List.getElem?_replicate]
      split <;> simp
  | set i id =>
    refine modify_all h (fun m hm j hj => ?_) i
    by_cases hid : id.toNat < m.len
    · have hne : j ≠ id.toNat := by
        have := id.toNat_lt
        unfold U32 at hj
        omega
      rw [BitMask.bit_set m _ j hid, hm j hj]
      simpa using hne
    · have hset : m.set id.toNat = m := by
        unfold BitMask.set
        rw [if_pos (Nat.not_lt.mp hid)]
      rw [hset]
      exact hm j hj
  | clear i id =>
    refine modify_all h (fun m hm j hj => ?_) i
    by_cases hid : id.toNat < m.len
    · rw [BitMask.bit_clear m _ j hid, hm j hj, Bool.and_false]
    · have hclear : m.clear id.toNat = m := by
        unfold BitMask.clear
        rw [if_pos (Nat.not_lt.mp hid)]
      rw [hclear]
      exact hm j hj
  | clearAll i =>
    refine modify_all h (fun m _ j _ => ?_) i
    simp only [BitMask.bit, BitMask.clearAll, List.getD_eq_getElem?_getD, List.getElem?_map]
    cases m.words[j / WORD_BITS]? <;> simp
  | intersect i j =>
    refine combine_all h (fun m other hm _ id hid => ?_) i j
    by_contra hbit
    rw [Bool.not_eq_false] at hbit
    have := BitMask.getLsbD_of_overlap_and m.words other.words _ _ hbit
    exact Bool.false_ne_true ((hm id hid).symm.trans this)
  | copyFrom i j =>
    refine combine_all h (fun m other hm ho id hid => ?_) i j
    rw [BitMask.bit_copyFrom]
    split
    · exact ho id hid
    · exact hm id hid

/-- Every operation but a copy keeps the masks clean, and a copy does so
exactly when it fits. -/
theorem step_clean_iff (h : ∀ m ∈ masks, m.Clean) (op : Op) :
    (∀ m ∈ step masks op, m.Clean) ↔ op.Fits masks := by
  cases op with
  | withLen len =>
    refine iff_of_true (fun m hm => ?_) trivial
    rcases List.mem_append.mp hm with hm | hm
    · exact h m hm
    · rw [List.mem_singleton.mp hm]
      exact BitMask.withLen_clean len
  | set i id => exact iff_of_true (modify_all h (fun m hm => BitMask.set_clean hm _) i) trivial
  | clear i id => exact iff_of_true (modify_all h (fun m hm => BitMask.clear_clean hm _) i) trivial
  | clearAll i =>
    refine iff_of_true (modify_all h (fun m _ id _ => ?_) i) trivial
    simp only [BitMask.bit, BitMask.clearAll, List.getD_eq_getElem?_getD, List.getElem?_map]
    cases m.words[id / WORD_BITS]? <;> simp
  | intersect i j =>
    exact iff_of_true (combine_all h (fun m other hm _ => BitMask.intersect_clean hm other) i j)
      trivial
  | copyFrom i j =>
    constructor
    · intro hclean m hm other hother
      have hother' := h other (List.mem_of_getElem? hother)
      refine (BitMask.copyFrom_clean_iff (h m (List.mem_of_getElem? hm)) hother').mp ?_
      refine hclean _ (List.mem_of_getElem? (i := i) ?_)
      have hm : masks[i]? = some m := hm
      have hother : masks[j]? = some other := hother
      simp only [step, combine, hother, List.getElem?_modify, if_pos, hm]
      rfl
    · intro hfits m hm
      obtain ⟨k, hk⟩ := List.getElem?_of_mem hm
      cases hj : masks[j]? with
      | none =>
        simp only [step, combine, hj] at hk
        exact h m (List.mem_of_getElem? hk)
      | some other =>
        simp only [step, combine, hj, List.getElem?_modify] at hk
        obtain ⟨m', hm', rfl⟩ := Option.map_eq_some_iff.mp hk
        have hclean := h m' (List.mem_of_getElem? hm')
        split
        · next hik =>
          subst hik
          refine (BitMask.copyFrom_clean_iff hclean (h other (List.mem_of_getElem? hj))).mpr ?_
          exact hfits m' hm' other hj
        · exact hclean

theorem faithful_of_clean (hsmall : ∀ m ∈ masks, m.Small) (hclean : ∀ m ∈ masks, m.Clean) :
    Faithful masks where
  clean := hclean
  scanned m hm := by
    refine ⟨BitMask.iterOnes_ascending (hsmall m hm), fun id => ?_⟩
    rw [BitMask.mem_iterOnes (hsmall m hm), BitMask.bit_of_test (hclean m hm)]
  intersected m _ other _ hlen := BitMask.test_intersect hlen
  copied m _ other _ hlen := BitMask.copyFrom_eq hlen
  packed m _ buf :=
    ⟨m.length_packLeBytesInto buf, fun _ hid => m.getLsbD_packLeBytesInto buf hid⟩

end steps

/-! ## Runs -/

theorem runs_faithful_iff {masks : List BitMask} (hsmall : ∀ m ∈ masks, m.Small)
    (hclean : ∀ m ∈ masks, m.Clean) (ops : List Op) :
    (∀ k, Faithful (run masks (ops.take k))) ↔ Fitting masks ops := by
  induction ops generalizing masks with
  | nil =>
    refine iff_of_true (fun k => ?_) trivial
    rw [List.take_nil]
    exact faithful_of_clean hsmall hclean
  | cons op ops ih =>
    constructor
    · intro h
      have hnext : Faithful (step masks op) := h 1
      refine ⟨(step_clean_iff hclean op).mp hnext.clean, ?_⟩
      exact (ih (step_small hsmall op) hnext.clean).mp fun k => h (k + 1)
    · rintro ⟨hfits, hrest⟩ k
      cases k with
      | zero => exact faithful_of_clean hsmall hclean
      | succ k =>
        have hclean' := (step_clean_iff hclean op).mpr hfits
        exact (ih (step_small hsmall op) hclean').mpr hrest k

/-- In a run from no masks, the masks are faithful after every operation
exactly when every copy fits. -/
theorem masks_keep_to_their_ids (ops : List Op) :
    (∀ k, Faithful (run [] (ops.take k))) ↔ Fitting [] ops :=
  runs_faithful_iff (List.forall_mem_nil _) (List.forall_mem_nil _) ops

/-- A mask for one id takes a copy of a mask for two. It then yields an id
that its test denies. -/
theorem a_copy_brings_an_id :
    ¬ Faithful (run [] [.withLen 1, .withLen 2, .set 1 1, .copyFrom 0 1]) := by
  intro h
  have hscan := (h.scanned ((BitMask.withLen 1).copyFrom ((BitMask.withLen 2).set 1))
    (by decide)).2 1
  exact absurd (hscan.mp (by decide)) (by decide)

end purecard.mask
