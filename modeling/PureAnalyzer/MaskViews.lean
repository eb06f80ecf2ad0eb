-- The views of a mask: the ids that a scan of its words yields, and the bytes
-- that it is packed in. They agree with the test of an id in every run in
-- which no copy reaches past the last id.
import PureAnalyzer.Mask

namespace purecard.mask

/-! ## The scan and the bytes (`mask.rs`) -/

/-- The bytes of a word, the lowest one first. -/
def toLeBytes (word : BitVec 64) : List (BitVec 8) :=
  (List.range 8).map fun offset => word.extractLsb' (8 * offset) 8

def U32 : Nat := 2 ^ 32

namespace BitMask

/-- The ids of the set bits, word by word. An id is counted in 32 bits. -/
def iterOnes (m : BitMask) : List Nat :=
  m.words.zipIdx.flatMap fun (bits, word) =>
    let base := word % U32 * WORD_BITS % U32
    (List.range WORD_BITS).filterMap fun bit =>
      if bits &&& (1#64 <<< bit) ≠ 0 then some ((base + bit) % U32) else none

/-- The buffer is emptied and filled with zeros before the bytes are written.
A byte that has no place in it is left out. -/
def packLeBytesInto (m : BitMask) (_buf : List (BitVec 8)) : List (BitVec 8) :=
  let byte_len := (m.len + 7) / 8
  let buf := List.replicate byte_len 0
  m.words.zipIdx.foldl (fun buf (word, word_idx) =>
    let base := word_idx * 8
    (toLeBytes word).zipIdx.foldl (fun buf (byte, offset) => buf.set (base + offset) byte) buf) buf

end BitMask

/-! ## Packed bytes -/

/-- Bytes that are written one after the other stand at their places. -/
theorem getElem?_written (bytes : List (BitVec 8)) (buf : List (BitVec 8)) (base k i : Nat) :
    ((bytes.zipIdx k).foldl (fun buf p => buf.set (base + p.2) p.1) buf)[i]? =
      if base + k ≤ i ∧ i < base + k + bytes.length ∧ i < buf.length then bytes[i - (base + k)]?
      else buf[i]? := by
  induction bytes generalizing buf k with
  | nil =>
    rw [if_neg (by simp; omega)]
    rfl
  | cons byte bytes ih =>
    rw [List.zipIdx_cons, List.foldl_cons, ih, List.length_set, List.length_cons,
      List.getElem?_set]
    by_cases hi : i = base + k
    · subst hi
      rw [if_neg (by omega), if_pos rfl]
      by_cases hlen : base + k < buf.length
      · rw [if_pos hlen, if_pos ⟨Nat.le_refl _, by omega, hlen⟩, Nat.sub_self]
        rfl
      · rw [if_neg hlen, if_neg (by omega), List.getElem?_eq_none (Nat.le_of_not_lt hlen)]
    · have hne : ¬ base + k = i := fun h => hi h.symm
      rw [if_neg hne]
      by_cases hin : base + k ≤ i ∧ i < base + k + (bytes.length + 1) ∧ i < buf.length
      · have hsub : i - (base + k) = (i - (base + (k + 1))) + 1 := by omega
        rw [if_pos hin, if_pos (by omega), hsub, List.getElem?_cons_succ]
      · rw [if_neg hin, if_neg (by omega)]

theorem length_written (bytes : List (BitVec 8)) (buf : List (BitVec 8)) (base k : Nat) :
    ((bytes.zipIdx k).foldl (fun buf p => buf.set (base + p.2) p.1) buf).length = buf.length := by
  induction bytes generalizing buf k with
  | nil => rfl
  | cons byte bytes ih =>
    rw [List.zipIdx_cons, List.foldl_cons, ih, List.length_set]

theorem length_toLeBytes (word : BitVec 64) : (toLeBytes word).length = 8 := by
  simp [toLeBytes]

/-- The words of a mask, written one after the other. -/
def writeWords (words : List (BitVec 64)) (k : Nat) (buf : List (BitVec 8)) : List (BitVec 8) :=
  (words.zipIdx k).foldl (fun buf p =>
    (toLeBytes p.1).zipIdx.foldl (fun buf q => buf.set (p.2 * 8 + q.2) q.1) buf) buf

theorem length_writeWords (words : List (BitVec 64)) (k : Nat) (buf : List (BitVec 8)) :
    (writeWords words k buf).length = buf.length := by
  induction words generalizing k buf with
  | nil => rfl
  | cons word words ih =>
    rw [writeWords, List.zipIdx_cons, List.foldl_cons]
    exact (ih (k + 1) _).trans (length_written _ _ _ 0)

/-- A byte of the buffer is a byte of the word that covers it. -/
theorem getElem?_writeWords (words : List (BitVec 64)) (k : Nat) (buf : List (BitVec 8))
    {i : Nat} (hk : k ≤ i / 8) (hi : i < buf.length) (hw : i / 8 < k + words.length) :
    (writeWords words k buf)[i]? = (toLeBytes (words.getD (i / 8 - k) 0))[i % 8]? := by
  induction words generalizing k buf with
  | nil =>
    simp only [List.length_nil, Nat.add_zero] at hw
    omega
  | cons word words ih =>
    rw [writeWords, List.zipIdx_cons, List.foldl_cons]
    have hlen := length_written (toLeBytes word) buf (k * 8) 0
    by_cases heq : i / 8 = k
    · have hkeep : ∀ (words : List (BitVec 64)) (k : Nat) (buf : List (BitVec 8)), i / 8 < k →
          (writeWords words k buf)[i]? = buf[i]? := by
        intro words
        induction words with
        | nil => intro k buf _; rfl
        | cons word words ih =>
          intro k buf hk
          rw [writeWords, List.zipIdx_cons, List.foldl_cons]
          refine (ih (k + 1) _ (by omega)).trans ?_
          rw [getElem?_written, if_neg (by omega)]
      refine (hkeep words (k + 1) _ (by omega)).trans ?_
      rw [getElem?_written, length_toLeBytes, if_pos (by omega), heq, Nat.sub_self,
        List.getD_cons_zero]
      congr 1
      omega
    · have hsub : i / 8 - k = (i / 8 - (k + 1)) + 1 := by omega
      rw [hsub, List.getD_cons_succ]
      refine ih (k + 1) _ (by omega) (by rw [hlen]; exact hi) ?_
      rw [List.length_cons] at hw
      omega

namespace BitMask

theorem length_packLeBytesInto (m : BitMask) (buf : List (BitVec 8)) :
    (m.packLeBytesInto buf).length = (m.len + 7) / 8 :=
  (length_writeWords m.words 0 _).trans List.length_replicate

/-- The bit of an id stands in the packed bytes. -/
theorem getLsbD_packLeBytesInto (m : BitMask) (buf : List (BitVec 8)) {id : Nat}
    (h : id < m.len) :
    ((m.packLeBytesInto buf).getD (id / 8) 0).getLsbD (id % 8) = m.test id := by
  have hword := m.word_lt h
  have hdiv : id / 8 / 8 = id / WORD_BITS := by unfold WORD_BITS; omega
  have hmod : 8 * (id / 8 % 8) + id % 8 = id % WORD_BITS := by unfold WORD_BITS; omega
  have hbyte : (m.packLeBytesInto buf)[id / 8]? =
      (toLeBytes (m.words.getD (id / 8 / 8 - 0) 0))[id / 8 % 8]? := by
    refine getElem?_writeWords m.words 0 _ (Nat.zero_le _) ?_ ?_
    · rw [List.length_replicate]
      omega
    · rw [hdiv, Nat.zero_add]
      exact hword
  rw [test_eq, decide_eq_true h, Bool.true_and, List.getD_eq_getElem?_getD, hbyte, Nat.sub_zero,
    hdiv, toLeBytes, List.getElem?_map, List.getElem?_range (Nat.mod_lt _ (by decide)),
    Option.map_some, Option.getD_some, BitVec.getLsbD_extractLsb', hmod,
    decide_eq_true (Nat.mod_lt _ (by decide)), Bool.true_and]
  rfl

/-! ## Scanned ids -/

/-- No id past the 32 bits of an id is in the mask. -/
def Small (m : BitMask) : Prop := ∀ id, U32 ≤ id → m.bit id = false

theorem and_one_shl (word : BitVec 64) {k : Nat} (hk : k < 64) :
    word &&& (1#64 <<< k) ≠ 0 ↔ word.getLsbD k = true := by
  constructor
  · intro hne
    by_contra hbit
    refine hne (BitVec.eq_of_getLsbD_eq fun j hj => ?_)
    rw [BitVec.getLsbD_and, getLsbD_one_shl k j hj]
    by_cases hjk : j = k
    · subst hjk
      simpa using hbit
    · simp [hjk]
  · intro hbit hzero
    have hk' := congrArg (·.getLsbD k) hzero
    simp [hbit, getLsbD_one_shl k k hk] at hk'

theorem bit_word (m : BitMask) (word : Nat) {k : Nat} (hk : k < WORD_BITS) :
    m.bit (WORD_BITS * word + k) = (m.words.getD word 0).getLsbD k := by
  have hdiv : (WORD_BITS * word + k) / WORD_BITS = word := by unfold WORD_BITS at *; omega
  have hmod : (WORD_BITS * word + k) % WORD_BITS = k := by unfold WORD_BITS at *; omega
  rw [bit, hdiv, hmod]

/-- What the scan yields for one word. -/
theorem scan_word {m : BitMask} (hsmall : m.Small) {bits : BitVec 64} {word : Nat}
    (hword : m.words[word]? = some bits) :
    ((List.range WORD_BITS).filterMap fun bit =>
      if bits &&& (1#64 <<< bit) ≠ 0 then some ((word % U32 * WORD_BITS % U32 + bit) % U32)
      else none) =
    ((List.range WORD_BITS).filter fun bit => bits.getLsbD bit).map (WORD_BITS * word + ·) := by
  rw [← List.filterMap_eq_map, ← List.filterMap_eq_filter, List.filterMap_filterMap]
  refine List.filterMap_congr fun k hk => ?_
  have hk : k < WORD_BITS := List.mem_range.mp hk
  by_cases hbit : bits.getLsbD k = true
  · have hid : m.bit (WORD_BITS * word + k) = true := by
      rw [bit_word m word hk, List.getD_eq_getElem?_getD, hword]
      exact hbit
    have hlt : WORD_BITS * word + k < U32 := by
      by_contra hge
      rw [hsmall _ (Nat.le_of_not_lt hge)] at hid
      cases hid
    have hsame : (word % U32 * WORD_BITS % U32 + k) % U32 = WORD_BITS * word + k := by
      unfold WORD_BITS U32 at *
      omega
    rw [if_pos ((and_one_shl bits hk).mpr hbit), hsame]
    simp [hbit]
  · rw [if_neg fun h => hbit ((and_one_shl bits hk).mp h)]
    rw [Option.guard, if_neg (by simpa using hbit)]
    rfl

theorem iterOnes_eq {m : BitMask} (hsmall : m.Small) :
    m.iterOnes = m.words.zipIdx.flatMap fun p =>
      ((List.range WORD_BITS).filter fun bit => p.1.getLsbD bit).map (WORD_BITS * p.2 + ·) := by
  unfold iterOnes
  rw [List.flatMap_def, List.flatMap_def]
  refine congrArg List.flatten (List.map_congr_left fun p hp => ?_)
  exact scan_word hsmall (List.mem_zipIdx_iff_getElem?.mp hp)

theorem mem_iterOnes {m : BitMask} (hsmall : m.Small) (id : Nat) :
    id ∈ m.iterOnes ↔ m.bit id = true := by
  rw [iterOnes_eq hsmall, List.mem_flatMap]
  constructor
  · rintro ⟨⟨bits, word⟩, hp, hid⟩
    obtain ⟨k, hk, rfl⟩ := List.mem_map.mp hid
    obtain ⟨hrange, hbit⟩ := List.mem_filter.mp hk
    rw [bit_word m word (List.mem_range.mp hrange), List.getD_eq_getElem?_getD,
      List.mem_zipIdx_iff_getElem?.mp hp]
    exact hbit
  · intro hbit
    have hlt : id / WORD_BITS < m.words.length := by
      by_contra hge
      rw [bit_of_length_le m (Nat.le_of_not_lt hge)] at hbit
      cases hbit
    refine ⟨(m.words.getD (id / WORD_BITS) 0, id / WORD_BITS), ?_, ?_⟩
    · rw [List.mem_zipIdx_iff_getElem?, List.getD_eq_getElem?_getD, List.getElem?_eq_getElem hlt]
      rfl
    · refine List.mem_map.mpr ⟨id % WORD_BITS, List.mem_filter.mpr ⟨?_, hbit⟩,
        Nat.div_add_mod id WORD_BITS⟩
      exact List.mem_range.mpr (Nat.mod_lt _ (by decide))

/-- The ids come in their order. -/
theorem iterOnes_ascending {m : BitMask} (hsmall : m.Small) : m.iterOnes.Pairwise (· < ·) := by
  rw [iterOnes_eq hsmall, List.pairwise_flatMap]
  constructor
  · intro p _
    rw [List.pairwise_map]
    refine (List.pairwise_lt_range.filter _).imp fun h => ?_
    omega
  · have horder : m.words.zipIdx.Pairwise fun p q => p.2 < q.2 := by
      have hrange : ((m.words.zipIdx).map Prod.snd).Pairwise (· < ·) := by
        rw [List.zipIdx_map_snd]
        exact List.pairwise_lt_range'
      exact List.pairwise_map.mp hrange
    refine horder.imp fun {p q} hlt a ha b hb => ?_
    obtain ⟨k, hk, rfl⟩ := List.mem_map.mp ha
    obtain ⟨j, -, rfl⟩ := List.mem_map.mp hb
    have hk : k < WORD_BITS := List.mem_range.mp (List.mem_filter.mp hk).1
    unfold WORD_BITS at *
    omega

end BitMask

end purecard.mask
