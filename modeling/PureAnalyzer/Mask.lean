-- The set of allowed tokens as a bit mask (`mask.rs`), packed in words of
-- 64 bits, and the vocabulary it ranges over (`vocab.rs`). Each operation
-- on the words is one operation on the set of ids.
import Mathlib.Algebra.GroupWithZero.Nat
import Mathlib.Data.List.Basic

namespace purecard.mask

abbrev WORD_BITS : Nat := 64

/-- The number of words for `len` bits. -/
def divCeil (len : Nat) : Nat := (len + (WORD_BITS - 1)) / WORD_BITS

/-- The words of a mask over the ids below `len`. There are as many words
as the ids need, so no id in range falls outside of them. -/
structure BitMask where
  words : List (BitVec 64)
  len : Nat
  sized : words.length = divCeil len
deriving DecidableEq, Repr

/-- The word of an id, and its bit in that word. -/
def locate (id : Nat) : Nat × Nat := (id / WORD_BITS, id % WORD_BITS)

namespace BitMask

/-- A mask of that many ids, with none of them set. -/
def withLen (len : Nat) : BitMask :=
  ⟨List.replicate (divCeil len) 0, len, by simp⟩

def set (m : BitMask) (id : Nat) : BitMask :=
  if id ≥ m.len then m
  else ⟨m.words.modify (locate id).1 (· ||| (1#64 <<< (locate id).2)), m.len, by simp [m.sized]⟩

def clear (m : BitMask) (id : Nat) : BitMask :=
  if id ≥ m.len then m
  else ⟨m.words.modify (locate id).1 (· &&& ~~~(1#64 <<< (locate id).2)), m.len,
    by simp [m.sized]⟩

def test (m : BitMask) (id : Nat) : Bool :=
  if id ≥ m.len then false
  else ((m.words.getD (locate id).1 0 >>> (locate id).2) &&& 1) == 1

def clearAll (m : BitMask) : BitMask := ⟨m.words.map fun _ => 0, m.len, by simp [m.sized]⟩

end BitMask

/-- Combines the words that two masks share, and keeps the rest of the first. -/
def overlap (f : BitVec 64 → BitVec 64 → BitVec 64) :
    List (BitVec 64) → List (BitVec 64) → List (BitVec 64)
  | w :: ws, v :: vs => f w v :: overlap f ws vs
  | ws, [] => ws
  | [], _ => []

@[simp]
theorem length_overlap (f : BitVec 64 → BitVec 64 → BitVec 64) (ws vs : List (BitVec 64)) :
    (overlap f ws vs).length = ws.length := by
  fun_induction overlap f ws vs with
  | case1 w ws v vs ih => simp [ih]
  | case2 ws => rfl
  | case3 vs h => rfl

theorem getD_overlap (f : BitVec 64 → BitVec 64 → BitVec 64) {ws vs : List (BitVec 64)}
    (h : ws.length = vs.length) (i : Nat) (hi : i < ws.length) :
    (overlap f ws vs).getD i 0 = f (ws.getD i 0) (vs.getD i 0) := by
  induction ws generalizing vs i with
  | nil => simp at hi
  | cons w ws ih =>
    cases vs with
    | nil => simp at h
    | cons v vs =>
      cases i with
      | zero => simp [overlap]
      | succ i =>
        simp only [List.length_cons, Nat.add_lt_add_iff_right] at hi
        simp only [List.length_cons, Nat.add_right_cancel_iff] at h
        simpa [overlap] using ih h i hi

namespace BitMask

def intersect (m other : BitMask) : BitMask :=
  ⟨overlap (· &&& ·) m.words other.words, m.len, by simp [m.sized]⟩

/-- Copies the words that both masks have. -/
def copyFrom (m other : BitMask) : BitMask :=
  ⟨overlap (fun _ w => w) m.words other.words, m.len, by simp [m.sized]⟩

/-! ## The mask as a set of ids -/

/-- The bit of an id, read off its word. -/
def bit (m : BitMask) (id : Nat) : Bool :=
  (m.words.getD (id / WORD_BITS) 0).getLsbD (id % WORD_BITS)

/-- An id below the length has its word. -/
theorem word_lt (m : BitMask) {id : Nat} (h : id < m.len) :
    id / WORD_BITS < m.words.length := by
  rw [m.sized]
  unfold divCeil WORD_BITS
  omega

/-- An id is set when it is below the length and its bit is. -/
theorem test_eq (m : BitMask) (id : Nat) : m.test id = (decide (id < m.len) && m.bit id) := by
  unfold test bit locate
  by_cases h : id < m.len
  · simp only [ge_iff_le, Nat.not_le.mpr h, if_false, h, decide_true, Bool.true_and]
    generalize m.words.getD (id / WORD_BITS) 0 = w
    generalize hk : id % WORD_BITS = k
    have hk : k < 64 := by subst hk; exact Nat.mod_lt _ (by decide)
    rw [Bool.eq_iff_iff, beq_iff_eq]
    constructor
    · intro hone
      have := congrArg (·.getLsbD 0) hone
      simpa using this
    · intro hbit
      apply BitVec.eq_of_getLsbD_eq
      intro i hi
      cases i with
      | zero => simp [hbit]
      | succ i => simp
  · simp [h, Nat.not_lt.mp h]

@[simp]
theorem len_withLen (len : Nat) : (withLen len).len = len := rfl

@[simp]
theorem len_set (m : BitMask) (id : Nat) : (m.set id).len = m.len := by
  unfold set; split <;> rfl

@[simp]
theorem len_clear (m : BitMask) (id : Nat) : (m.clear id).len = m.len := by
  unfold clear; split <;> rfl

@[simp]
theorem len_clearAll (m : BitMask) : m.clearAll.len = m.len := rfl

@[simp]
theorem len_intersect (m other : BitMask) : (m.intersect other).len = m.len := rfl

@[simp]
theorem len_copyFrom (m other : BitMask) : (m.copyFrom other).len = m.len := rfl

@[simp]
theorem test_withLen (len id : Nat) : (withLen len).test id = false := by
  rw [test_eq]
  simp only [bit, withLen, List.getD_eq_getElem?_getD, List.getElem?_replicate]
  split <;> simp

theorem getD_modify (ws : List (BitVec 64)) (f : BitVec 64 → BitVec 64) (i j : Nat)
    (hi : i < ws.length) :
    (ws.modify i f).getD j 0 = if i = j then f (ws.getD j 0) else ws.getD j 0 := by
  simp only [List.getD_eq_getElem?_getD, List.getElem?_modify]
  by_cases hij : i = j
  · subst hij
    simp [List.getElem?_eq_getElem hi]
  · simp [hij]

theorem getLsbD_one_shl (k j : Nat) (hj : j < 64) :
    (1#64 <<< k).getLsbD j = decide (j = k) := by
  rw [BitVec.getLsbD_shiftLeft, Bool.eq_iff_iff]
  simp only [hj, decide_true, Bool.true_and, Bool.and_eq_true, Bool.not_eq_true',
    decide_eq_false_iff_not, decide_eq_true_eq, BitVec.getLsbD_one]
  omega

theorem same_id (id j : Nat) :
    (id / WORD_BITS = j / WORD_BITS ∧ j % WORD_BITS = id % WORD_BITS) ↔ j = id := by
  constructor
  · rintro ⟨hw, hmod⟩
    rw [← Nat.div_add_mod j WORD_BITS, ← Nat.div_add_mod id WORD_BITS, hw, hmod]
  · rintro rfl
    exact ⟨rfl, rfl⟩

/-- Setting an id sets its bit and leaves the others. -/
theorem bit_set (m : BitMask) (id j : Nat) (h : id < m.len) :
    (m.set id).bit j = (decide (j = id) || m.bit j) := by
  unfold set bit locate
  simp only [ge_iff_le, Nat.not_le.mpr h, if_false]
  rw [getD_modify _ _ _ _ (m.word_lt h)]
  have hsame := same_id id j
  by_cases hw : id / WORD_BITS = j / WORD_BITS
  · simp only [hw, if_true, true_and] at hsame ⊢
    rw [BitVec.getLsbD_or, getLsbD_one_shl _ _ (Nat.mod_lt _ (by decide)), Bool.or_comm]
    simp only [hsame]
  · simp only [hw, if_false, false_and, false_iff] at hsame ⊢
    simp [hsame]

/-- Clearing an id clears its bit and leaves the others. -/
theorem bit_clear (m : BitMask) (id j : Nat) (h : id < m.len) :
    (m.clear id).bit j = (decide (j ≠ id) && m.bit j) := by
  unfold clear bit locate
  simp only [ge_iff_le, Nat.not_le.mpr h, if_false]
  rw [getD_modify _ _ _ _ (m.word_lt h)]
  have hsame := same_id id j
  by_cases hw : id / WORD_BITS = j / WORD_BITS
  · simp only [hw, if_true, true_and] at hsame ⊢
    have hlt : j % WORD_BITS < 64 := Nat.mod_lt _ (by decide)
    rw [BitVec.getLsbD_and, BitVec.getLsbD_not, getLsbD_one_shl _ _ hlt, Bool.and_comm]
    simp [hlt, hsame]
  · simp only [hw, if_false, false_and, false_iff] at hsame ⊢
    simp [hsame]

theorem test_set (m : BitMask) (id j : Nat) :
    (m.set id).test j = (decide (j = id ∧ id < m.len) || m.test j) := by
  by_cases h : id < m.len
  · rw [test_eq, test_eq, len_set, bit_set m id j h, Bool.and_or_distrib_left]
    by_cases hj : j = id
    · simp [hj, h]
    · simp [hj]
  · have hset : m.set id = m := by unfold set; rw [if_pos (Nat.not_lt.mp h)]
    simp [hset, h]

theorem test_clear (m : BitMask) (id j : Nat) :
    (m.clear id).test j = (decide (j ≠ id) && m.test j) := by
  by_cases h : id < m.len
  · rw [test_eq, test_eq, len_clear, bit_clear m id j h, Bool.and_left_comm]
  · have hclear : m.clear id = m := by unfold clear; rw [if_pos (Nat.not_lt.mp h)]
    rw [hclear, test_eq]
    by_cases hj : j = id
    · simp [hj, h]
    · simp [hj]

@[simp]
theorem test_clearAll (m : BitMask) (id : Nat) : m.clearAll.test id = false := by
  rw [test_eq]
  simp only [bit, clearAll, List.getD_eq_getElem?_getD, List.getElem?_map]
  cases m.words[id / WORD_BITS]? <;> simp

/-- Of masks of one length the intersection has the ids that both have. -/
theorem test_intersect {m other : BitMask} (h : m.len = other.len) (id : Nat) :
    (m.intersect other).test id = (m.test id && other.test id) := by
  rw [test_eq, test_eq, test_eq, len_intersect, ← h]
  by_cases hid : id < m.len
  · simp only [bit, intersect, hid, decide_true, Bool.true_and]
    rw [getD_overlap _ (by rw [m.sized, other.sized, h]) _ (m.word_lt hid), BitVec.getLsbD_and]
  · simp [hid]

/-- From a mask of the same length all ids are copied. -/
theorem test_copyFrom {m other : BitMask} (h : m.len = other.len) (id : Nat) :
    (m.copyFrom other).test id = other.test id := by
  rw [test_eq, test_eq, len_copyFrom, ← h]
  by_cases hid : id < m.len
  · simp only [bit, copyFrom, hid, decide_true, Bool.true_and]
    rw [getD_overlap _ (by rw [m.sized, other.sized, h]) _ (m.word_lt hid)]
  · simp [hid]

/-- Setting the ids of a list that pass a test adds those ids. -/
theorem test_foldl_set (p : Nat → Bool) (ids : List Nat) (m : BitMask) (j : Nat) :
    (ids.foldl (fun m id => if p id then m.set id else m) m).test j =
      (m.test j || (decide (j ∈ ids ∧ j < m.len) && p j)) := by
  induction ids generalizing m with
  | nil => simp
  | cons id ids ih =>
    rw [List.foldl_cons, ih]
    by_cases hp : p id = true
    · rw [if_pos hp, test_set, len_set]
      by_cases hj : j = id
      · subst hj
        by_cases hlt : j < m.len <;> simp [hlt, hp]
      · simp [hj]
    · rw [if_neg hp]
      by_cases hj : j = id
      · subst hj
        simp [hp]
      · simp [hj]

@[simp]
theorem len_foldl_set (p : Nat → Bool) (ids : List Nat) (m : BitMask) :
    (ids.foldl (fun m id => if p id then m.set id else m) m).len = m.len := by
  induction ids generalizing m with
  | nil => rfl
  | cons id ids ih =>
    rw [List.foldl_cons, ih]
    split
    · exact len_set m id
    · rfl

/-! ## The bits past the last id -/

/-- No bit of the last word is set past the last id. -/
def Clean (m : BitMask) : Prop := ∀ id, m.len ≤ id → m.bit id = false

theorem withLen_clean (len : Nat) : (withLen len).Clean := by
  intro id _
  simp only [bit, withLen, List.getD_eq_getElem?_getD, List.getElem?_replicate]
  split <;> simp

theorem set_clean {m : BitMask} (h : m.Clean) (id : Nat) : (m.set id).Clean := by
  intro j hj
  rw [len_set] at hj
  by_cases hid : id < m.len
  · have hne : j ≠ id := by omega
    simp [bit_set m id j hid, hne, h j hj]
  · have hset : m.set id = m := by unfold set; rw [if_pos (Nat.not_lt.mp hid)]
    rw [hset]
    exact h j hj

theorem clear_clean {m : BitMask} (h : m.Clean) (id : Nat) : (m.clear id).Clean := by
  intro j hj
  rw [len_clear] at hj
  by_cases hid : id < m.len
  · simp [bit_clear m id j hid, h j hj]
  · have hclear : m.clear id = m := by unfold clear; rw [if_pos (Nat.not_lt.mp hid)]
    rw [hclear]
    exact h j hj

theorem foldl_set_clean (p : Nat → Bool) (ids : List Nat) {m : BitMask} (h : m.Clean) :
    (ids.foldl (fun m id => if p id then m.set id else m) m).Clean := by
  induction ids generalizing m with
  | nil => exact h
  | cons id ids ih =>
    rw [List.foldl_cons]
    split
    · exact ih (set_clean h id)
    · exact ih h

/-- An intersection sets no bit of its own. -/
theorem getLsbD_of_overlap_and (ws vs : List (BitVec 64)) (i k : Nat)
    (h : ((overlap (· &&& ·) ws vs).getD i 0).getLsbD k = true) :
    (ws.getD i 0).getLsbD k = true := by
  induction ws generalizing vs i with
  | nil => cases vs <;> simp [overlap] at h
  | cons w ws ih =>
    cases vs with
    | nil => exact h
    | cons v vs =>
      cases i with
      | zero =>
        simp only [overlap, List.getD_cons_zero, BitVec.getLsbD_and, Bool.and_eq_true] at h
        exact h.1
      | succ i => exact ih vs i h

/-- A bit past the last word is not set. -/
theorem bit_of_length_le (m : BitMask) {id : Nat} (h : m.words.length ≤ id / WORD_BITS) :
    m.bit id = false := by
  simp [bit, List.getElem?_eq_none h]

/-- What is not set on the left is not set in the intersection. -/
theorem intersect_clean {m : BitMask} (h : m.Clean) (other : BitMask) :
    (m.intersect other).Clean := by
  intro id hid
  have hbit := h id hid
  by_contra hset
  rw [Bool.not_eq_false] at hset
  rw [bit, getLsbD_of_overlap_and m.words other.words _ _ hset] at hbit
  cases hbit

/-- A copy from a clean mask of the same length is clean. -/
theorem copyFrom_clean {m other : BitMask} (h : other.Clean) (hlen : m.len = other.len) :
    (m.copyFrom other).Clean := by
  intro id hid
  by_cases hlt : id / WORD_BITS < m.words.length
  · simp only [bit, copyFrom]
    rw [getD_overlap _ (by rw [m.sized, other.sized, hlen]) _ hlt]
    exact h id (by rw [← hlen]; exact hid)
  · apply bit_of_length_le
    simp only [copyFrom, length_overlap]
    omega

/-- Two clean masks with the same ids are the same words. -/
theorem eq_of_test {m other : BitMask} (hm : m.Clean) (ho : other.Clean)
    (hlen : m.len = other.len) (h : ∀ id < m.len, m.test id = other.test id) : m = other := by
  have hbit : ∀ id, m.bit id = other.bit id := by
    intro id
    by_cases hid : id < m.len
    · have htest := h id hid
      rw [test_eq, test_eq, ← hlen] at htest
      simpa [hid] using htest
    · rw [hm id (by omega), ho id (by omega)]
  have hwords : m.words = other.words := by
    apply List.ext_getElem
    · rw [m.sized, other.sized, hlen]
    · intro i hi hi'
      apply BitVec.eq_of_getLsbD_eq
      intro k hk
      have hdiv : (WORD_BITS * i + k) / WORD_BITS = i := by unfold WORD_BITS; omega
      have hmod : (WORD_BITS * i + k) % WORD_BITS = k := by unfold WORD_BITS; omega
      have hk' := hbit (WORD_BITS * i + k)
      simpa [bit, hdiv, hmod, List.getD_eq_getElem?_getD, List.getElem?_eq_getElem hi,
        List.getElem?_eq_getElem hi'] using hk'
  obtain ⟨words, len, sized⟩ := m
  obtain ⟨words', len', sized'⟩ := other
  obtain rfl : words = words' := hwords
  obtain rfl : len = len' := hlen
  rfl

end BitMask

end purecard.mask

namespace purecard.vocab

/-- The bytes of each token. A token id is a `u32`, and so is the id one
past the last, which stands for the end of the stream. -/
structure Vocab where
  tokens : List (List UInt8)
  fits : tokens.length < 2 ^ 32

namespace Vocab

def bytes (v : Vocab) (id : Nat) : Option (List UInt8) := v.tokens[id]?

def len (v : Vocab) : Nat := v.tokens.length

/-- The length as the `u32` that the ids are counted with. -/
def lenU32 (v : Vocab) : Nat := v.len % 2 ^ 32

@[simp]
theorem lenU32_eq (v : Vocab) : v.lenU32 = v.len := Nat.mod_eq_of_lt v.fits

theorem bytes_eq_some_iff (v : Vocab) (id : Nat) : (v.bytes id).isSome ↔ id < v.len := by
  simp [bytes, len]

end Vocab

end purecard.vocab
