-- The text of a type in a Pure source (`pure-analyzer-model`, `pure.rs`): a
-- path, and the arguments in angle brackets behind it. The parser takes exactly
-- the texts of the grammar, and gives the type that the derivation denotes.
import PureAnalyzer.ModelTypes

namespace analyzer.model

open fragments

/-! ## Names (`pure.rs`) -/

def isAsciiAlphabetic (byte : UInt8) : Bool :=
  (65 ≤ byte && byte ≤ 90) || (97 ≤ byte && byte ≤ 122)

def isAsciiAlphanumeric (byte : UInt8) : Bool :=
  isAsciiAlphabetic byte || (48 ≤ byte && byte ≤ 57)

def isSimpleName : Text → Bool
  | [] => false
  | first :: bytes =>
    (first = 95 || isAsciiAlphabetic first) &&
      bytes.all fun byte => byte = 95 || isAsciiAlphanumeric byte

def isQualifiedName (text : Text) : Bool := (splitPath text).all isSimpleName

/-- One `::` in front is dropped. -/
def qnameFromText (text : Text) : Option QName :=
  let text := match text with
    | 58 :: 58 :: rest => rest
    | text => text
  if isQualifiedName text then (QName.new text).toOption else none

/-! ## The parser (`TypeTextParser`) -/

namespace typetext

/-- The bytes `<`, `>` and `,`. -/
def isDelimiter (byte : UInt8) : Bool := byte = 60 || byte = 62 || byte = 44

/-- Moves the offset to the next delimiter, one byte for each turn of the
budget. -/
def skipPath (text : Text) : Nat → Nat → Nat
  | 0, offset => offset
  | budget + 1, offset =>
    match text[offset]? with
    | none => offset
    | some byte => if isDelimiter byte then offset else skipPath text budget (offset + 1)

/-- The bytes between two offsets. Each stands next to an ASCII byte or at an
end of the text, so no character is cut. -/
def slice (text : Text) (start stop : Nat) : Option Text :=
  if start ≤ stop ∧ stop ≤ text.length then some ((text.take stop).drop start) else none

def consume (text : Text) (expected : UInt8) (offset : Nat) : Bool × Nat :=
  if text[offset]? = some expected then (true, offset + 1) else (false, offset)

mutual

/-- A type, and the offset behind it. Every call has less text left than the
one that made it, which the fuel counts. -/
def parseType (text : Text) : Nat → Nat → Option (TypeRef × Nat)
  | 0, _ => none
  | fuel + 1, start => do
    let offset := skipPath text (text.length - start) start
    let path ← slice text start offset
    let raw_type ← qnameFromText path
    match consume text 60 offset with
    | (false, offset) => some (.new raw_type [], offset)
    | (true, offset) =>
      let (first, offset) ← parseType text fuel offset
      let (more, offset) ← parseMore text fuel offset
      match consume text 62 offset with
      | (false, _) => none
      | (true, offset) => some (.new raw_type (first :: more), offset)

/-- The types behind commas. -/
def parseMore (text : Text) : Nat → Nat → Option (List TypeRef × Nat)
  | 0, _ => none
  | fuel + 1, offset =>
    match consume text 44 offset with
    | (false, offset) => some ([], offset)
    | (true, offset) => do
      let (ty, offset) ← parseType text fuel offset
      let (more, offset) ← parseMore text fuel offset
      some (ty :: more, offset)

end

def parseWith (fuel : Nat) (text : Text) : Option TypeRef := do
  let (ty, offset) ← parseType text fuel 0
  if offset = text.length then some ty else none

def parse (text : Text) : Option TypeRef := parseWith (text.length + 1) text

/-! ## The grammar -/

/-- An underscore or a letter, and underscores, letters and digits. -/
def IsName (text : Text) : Prop :=
  ∃ first bytes, text = first :: bytes ∧ (first = 95 ∨ isAsciiAlphabetic first = true) ∧
    ∀ byte ∈ bytes, byte = 95 ∨ isAsciiAlphanumeric byte = true

/-- `Name ('::' Name)*`. -/
def IsPath (text : Text) : Prop :=
  ∃ (first : Text) (more : List Text), IsName first ∧ (∀ name ∈ more, IsName name) ∧
    text = first ++ more.flatMap fun name => [58, 58] ++ name

/-! ### Paths are qualified names -/

theorem isSimpleName_iff (text : Text) : isSimpleName text = true ↔ IsName text := by
  cases text with
  | nil =>
    constructor
    · intro h
      cases h
    · rintro ⟨first, bytes, h, -⟩
      cases h
  | cons first bytes =>
    simp only [isSimpleName, Bool.and_eq_true, Bool.or_eq_true, decide_eq_true_eq, List.all_eq_true]
    constructor
    · rintro ⟨hfirst, hbytes⟩
      exact ⟨first, bytes, rfl, hfirst, hbytes⟩
    · rintro ⟨first', bytes', heq, hfirst, hbytes⟩
      obtain ⟨rfl, rfl⟩ := List.cons.inj heq
      exact ⟨hfirst, hbytes⟩

theorem alphabetic_range {byte : UInt8} (h : isAsciiAlphabetic byte = true) :
    65 ≤ byte.toNat ∧ byte.toNat ≤ 122 := by
  simp only [isAsciiAlphabetic, Bool.or_eq_true, Bool.and_eq_true, decide_eq_true_eq,
    UInt8.le_iff_toNat_le] at h
  have h65 : (65 : UInt8).toNat = 65 := rfl
  have h90 : (90 : UInt8).toNat = 90 := rfl
  have h97 : (97 : UInt8).toNat = 97 := rfl
  have h122 : (122 : UInt8).toNat = 122 := rfl
  omega

/-- The bytes of a name are printed ones, and none of `:`, `<`, `>` and `,`. -/
theorem IsName.bytes {text : Text} (h : IsName text) :
    ∀ byte ∈ text, 48 ≤ byte.toNat ∧ byte.toNat ≤ 122 ∧ byte ≠ 58 ∧ isDelimiter byte = false := by
  have hplain : ∀ byte : UInt8, byte = 95 ∨ isAsciiAlphanumeric byte = true →
      48 ≤ byte.toNat ∧ byte.toNat ≤ 122 ∧ byte.toNat ≠ 58 ∧ byte.toNat ≠ 60 ∧ byte.toNat ≠ 62 := by
    rintro byte (rfl | hbyte)
    · decide
    · simp only [isAsciiAlphanumeric, Bool.or_eq_true, Bool.and_eq_true, decide_eq_true_eq,
        UInt8.le_iff_toNat_le] at hbyte
      have h48 : (48 : UInt8).toNat = 48 := rfl
      have h57 : (57 : UInt8).toNat = 57 := rfl
      rcases hbyte with hletter | hdigit
      · have := alphabetic_range hletter
        omega
      · omega
  obtain ⟨first, bytes, rfl, hfirst, hbytes⟩ := h
  intro byte hbyte
  have hclass : byte = 95 ∨ isAsciiAlphanumeric byte = true := by
    rcases List.mem_cons.mp hbyte with rfl | hbyte
    · refine hfirst.imp_right fun hletter => ?_
      simp [isAsciiAlphanumeric, hletter]
    · exact hbytes byte hbyte
  obtain ⟨hlo, hhi, h58, h60, h62⟩ := hplain byte hclass
  refine ⟨hlo, hhi, ?_, ?_⟩
  · rintro rfl
    exact h58 rfl
  · simp only [isDelimiter, Bool.or_eq_false_iff, decide_eq_false_iff_not]
    refine ⟨⟨?_, ?_⟩, ?_⟩
    · rintro rfl
      exact h60 rfl
    · rintro rfl
      exact h62 rfl
    · rintro rfl
      exact absurd hlo (by decide)

theorem splitPath_name {name : Text} (h : ∀ byte ∈ name, byte ≠ 58) : splitPath name = [name] := by
  induction name with
  | nil => rfl
  | cons a name ih =>
    cases name with
    | nil => rfl
    | cons b name =>
      have ha := h a List.mem_cons_self
      rw [splitPath, if_neg (fun hab => ha hab.1), ih fun byte hbyte =>
        h byte (List.mem_cons_of_mem _ hbyte)]

theorem splitPath_behind {name : Text} (h : ∀ byte ∈ name, byte ≠ 58) (rest : Text) :
    splitPath (name ++ 58 :: 58 :: rest) = name :: splitPath rest := by
  induction name with
  | nil =>
    show splitPath (58 :: 58 :: rest) = _
    rw [splitPath, if_pos ⟨rfl, rfl⟩]
  | cons a name ih =>
    have ha := h a List.mem_cons_self
    have hrest := ih fun byte hbyte => h byte (List.mem_cons_of_mem _ hbyte)
    cases name with
    | nil =>
      show splitPath (a :: 58 :: 58 :: rest) = _
      rw [splitPath, if_neg (fun hab => ha hab.1)]
      rw [List.nil_append] at hrest
      rw [hrest]
    | cons b name =>
      show splitPath (a :: b :: (name ++ 58 :: 58 :: rest)) = _
      rw [splitPath, if_neg (fun hab => ha hab.1)]
      rw [List.cons_append] at hrest
      rw [hrest]

theorem splitPath_path {first : Text} {more : List Text} (hfirst : IsName first)
    (hmore : ∀ name ∈ more, IsName name) :
    splitPath (first ++ more.flatMap fun name => [58, 58] ++ name) = first :: more := by
  induction more generalizing first with
  | nil =>
    rw [List.flatMap_nil, List.append_nil]
    exact splitPath_name fun byte hbyte => (hfirst.bytes byte hbyte).2.2.1
  | cons name more ih =>
    rw [List.flatMap_cons]
    show splitPath (first ++ 58 :: 58 :: (name ++ more.flatMap fun name => [58, 58] ++ name)) = _
    rw [splitPath_behind fun byte hbyte => (hfirst.bytes byte hbyte).2.2.1,
      ih (hmore name List.mem_cons_self) fun _ hname => hmore _ (List.mem_cons_of_mem _ hname)]

/-- The segments of a text, joined, are the text. -/
theorem splitPath_joins (text : Text) :
    ∃ first more, splitPath text = first :: more ∧
      text = first ++ more.flatMap fun name => [58, 58] ++ name := by
  fun_induction splitPath text with
  | case1 a b rest hab ih =>
    obtain ⟨rfl, rfl⟩ := hab
    obtain ⟨first, more, hsplit, htext⟩ := ih
    refine ⟨[], splitPath rest, rfl, ?_⟩
    rw [hsplit, List.flatMap_cons, List.nil_append, List.append_assoc, ← htext]
    rfl
  | case2 a b rest hab segment segments heq ih =>
    obtain ⟨first, more, hsplit, htext⟩ := ih
    obtain ⟨rfl, rfl⟩ := List.cons.inj (heq.symm.trans hsplit)
    exact ⟨a :: segment, segments, rfl, by rw [List.cons_append, ← htext]⟩
  | case3 a b rest hab heq ih =>
    obtain ⟨first, more, hsplit, -⟩ := ih
    rw [heq] at hsplit
    cases hsplit
  | case4 text => exact ⟨text, [], rfl, by simp⟩

theorem isQualifiedName_iff (text : Text) : isQualifiedName text = true ↔ IsPath text := by
  unfold isQualifiedName
  rw [List.all_eq_true]
  constructor
  · intro h
    obtain ⟨first, more, hsplit, htext⟩ := splitPath_joins text
    rw [hsplit] at h
    refine ⟨first, more, (isSimpleName_iff _).mp (h first List.mem_cons_self), ?_, htext⟩
    exact fun name hname => (isSimpleName_iff _).mp (h name (List.mem_cons_of_mem _ hname))
  · rintro ⟨first, more, hfirst, hmore, rfl⟩ name hname
    rw [splitPath_path hfirst hmore] at hname
    rw [isSimpleName_iff]
    rcases List.mem_cons.mp hname with rfl | hname
    · exact hfirst
    · exact hmore name hname

theorem hasControl_plain {text : Text} (h : ∀ byte ∈ text, 48 ≤ byte.toNat ∧ byte.toNat ≤ 122) :
    hasControl text = false := by
  have hbyte : ∀ byte ∈ text, ¬ byte < 0x20 ∧ byte ≠ 0x7F ∧ byte ≠ 0xC2 := by
    intro byte hmem
    obtain ⟨hlo, hhi⟩ := h byte hmem
    refine ⟨?_, ?_, ?_⟩
    · rw [UInt8.lt_iff_toNat_lt]
      exact Nat.not_lt.mpr (Nat.le_trans (by decide) hlo)
    · rintro rfl
      exact absurd hhi (by decide)
    · rintro rfl
      exact absurd hhi (by decide)
  clear h
  induction text with
  | nil => rfl
  | cons a text ih =>
    obtain ⟨hlt, hdelete, hlead⟩ := hbyte a List.mem_cons_self
    have hrest := ih fun byte hmem => hbyte byte (List.mem_cons_of_mem _ hmem)
    cases text with
    | nil => simp [hasControl, hlt, hdelete]
    | cons b text => simp [hasControl, hlt, hdelete, hlead, hrest]

theorem IsPath.bytes {text : Text} (h : IsPath text) :
    ∀ byte ∈ text, 48 ≤ byte.toNat ∧ byte.toNat ≤ 122 ∧ isDelimiter byte = false := by
  obtain ⟨first, more, hfirst, hmore, rfl⟩ := h
  have hname : ∀ name, IsName name → ∀ byte ∈ name,
      48 ≤ byte.toNat ∧ byte.toNat ≤ 122 ∧ isDelimiter byte = false := by
    intro name hname byte hbyte
    obtain ⟨hlo, hhi, -, hplain⟩ := hname.bytes byte hbyte
    exact ⟨hlo, hhi, hplain⟩
  intro byte hbyte
  rcases List.mem_append.mp hbyte with hbyte | hbyte
  · exact hname first hfirst byte hbyte
  · obtain ⟨name, hmem, hbyte⟩ := List.mem_flatMap.mp hbyte
    rcases List.mem_append.mp hbyte with hcolon | hbyte
    · obtain rfl : byte = 58 := by simpa using hcolon
      decide
    · exact hname name (hmore name hmem) byte hbyte

theorem IsPath.valid {text : Text} (h : IsPath text) : (QName.validate text).isOk = true := by
  have hcontrol : hasControl text = false :=
    hasControl_plain fun byte hbyte => ⟨(h.bytes byte hbyte).1, (h.bytes byte hbyte).2.1⟩
  obtain ⟨first, more, hfirst, hmore, htext⟩ := h
  have hnonempty : ∀ name, IsName name → name.isEmpty = false := by
    rintro name ⟨first, bytes, rfl, -⟩
    rfl
  have hempty : text.isEmpty = false := by
    obtain ⟨byte, bytes, rfl, -⟩ := hfirst
    rw [htext]
    rfl
  have hsegments : (splitPath text).any List.isEmpty = false := by
    rw [htext, splitPath_path hfirst hmore, List.any_eq_false]
    intro name hname
    rw [Bool.not_eq_true]
    rcases List.mem_cons.mp hname with rfl | hname
    · exact hnonempty _ hfirst
    · exact hnonempty _ (hmore _ hname)
  simp [QName.validate, validateNameText, hempty, hcontrol, hsegments, Except.isOk, Except.toBool]

/-- The path as a qualified name. -/
def IsPath.qname {text : Text} (h : IsPath text) : QName := ⟨text, h.valid⟩

theorem QName.new_valid {text : Text} (h : (QName.validate text).isOk = true) :
    QName.new text = .ok ⟨text, h⟩ := by
  unfold QName.new
  split
  · next e he =>
    rw [he] at h
    cases h
  · rfl

/-- Nothing, or the `::` in front of a path. -/
def IsRoot (colons : Text) : Prop := colons = [] ∨ colons = [58, 58]

theorem qnameFromText_iff (text : Text) (path : QName) :
    qnameFromText text = some path ↔
      ∃ colons, IsRoot colons ∧ text = colons ++ path.text ∧ IsPath path.text := by
  have hqualified : ∀ body : Text,
      (if isQualifiedName body then (QName.new body).toOption else none) = some path ↔
        body = path.text ∧ IsPath path.text := by
    intro body
    constructor
    · intro h
      split at h
      · next hbody =>
        have hpath := (isQualifiedName_iff body).mp hbody
        rw [QName.new_valid hpath.valid] at h
        obtain rfl := Option.some.inj h
        exact ⟨rfl, hpath⟩
      · cases h
    · rintro ⟨rfl, hpath⟩
      rw [if_pos ((isQualifiedName_iff _).mpr hpath), QName.new_valid hpath.valid]
      rfl
  have hstarts : ∀ rest, ¬ IsPath (58 :: rest) := by
    rintro rest ⟨first, more, hfirst, -, heq⟩
    have hbytes := hfirst.bytes
    obtain ⟨byte, bytes, rfl, -⟩ := hfirst
    obtain ⟨rfl, -⟩ := List.cons.inj heq
    exact (hbytes 58 List.mem_cons_self).2.2.1 rfl
  unfold qnameFromText
  split
  · next rest =>
    rw [hqualified]
    constructor
    · rintro ⟨rfl, hpath⟩
      exact ⟨[58, 58], .inr rfl, rfl, hpath⟩
    · rintro ⟨colons, rfl | rfl, heq, hpath⟩
      · rw [List.nil_append] at heq
        rw [← heq] at hpath
        exact absurd hpath (hstarts _)
      · obtain ⟨-, heq⟩ := List.cons.inj heq
        exact ⟨(List.cons.inj heq).2, hpath⟩
  · next hother =>
    rw [hqualified]
    constructor
    · rintro ⟨rfl, hpath⟩
      exact ⟨[], .inl rfl, rfl, hpath⟩
    · rintro ⟨colons, rfl | rfl, heq, hpath⟩
      · exact ⟨heq, hpath⟩
      · exact absurd heq (hother _)

/-! ### Types -/

/-- `T ::= ['::'] Name ('::' Name)* ['<' T (',' T)* '>']`, and the type that
each derivation denotes. -/
inductive Derives : Text → TypeRef → Prop
  | plain {colons path : Text} (hroot : IsRoot colons) (hpath : IsPath path) :
    Derives (colons ++ path) (.new hpath.qname [])
  | applied {colons path : Text} (hroot : IsRoot colons) (hpath : IsPath path)
      {first : Text × TypeRef} {more : List (Text × TypeRef)} (hfirst : Derives first.1 first.2)
      (hmore : ∀ part ∈ more, Derives part.1 part.2) :
    Derives (colons ++ path ++ 60 :: (first.1 ++ (more.flatMap fun part => 44 :: part.1) ++ [62]))
      (.new hpath.qname (first.2 :: more.map Prod.snd))

/-! ## One turn of the parser -/

theorem get_behind (before after : Text) : (before ++ after)[before.length]? = after.head? := by
  rw [List.getElem?_append_right (Nat.le_refl _), Nat.sub_self, List.head?_eq_getElem?]

theorem consume_hit {text before after : Text} {byte : UInt8}
    (h : text = before ++ byte :: after) :
    consume text byte before.length = (true, (before ++ [byte]).length) := by
  rw [consume, if_pos (by rw [h, get_behind]; rfl), List.length_append]
  rfl

theorem consume_miss {text before after : Text} {byte : UInt8} (h : text = before ++ after)
    (hmiss : after.head? ≠ some byte) :
    consume text byte before.length = (false, before.length) := by
  rw [consume, if_neg (by rwa [h, get_behind])]

theorem skipPath_stops {text before path after : Text} (h : text = before ++ (path ++ after))
    (hpath : ∀ byte ∈ path, isDelimiter byte = false) (hafter : after.head?.all isDelimiter = true)
    {budget : Nat} (hbudget : path.length ≤ budget) :
    skipPath text budget before.length = (before ++ path).length := by
  induction path generalizing before budget with
  | nil =>
    rw [List.append_nil]
    cases budget with
    | zero => rfl
    | succ budget =>
      rw [skipPath, h, List.nil_append, get_behind]
      cases after with
      | nil => rfl
      | cons byte after =>
        have hstop : isDelimiter byte = true := hafter
        simp only [List.head?_cons, hstop, if_true]
  | cons byte path ih =>
    cases budget with
    | zero => cases hbudget
    | succ budget =>
      have hbyte := hpath byte List.mem_cons_self
      have hnext := @ih (before ++ [byte]) (by rw [h]; simp)
        (fun byte hmem => hpath byte (List.mem_cons_of_mem _ hmem)) budget
        (Nat.le_of_succ_le_succ hbudget)
      have hget : text[before.length]? = some byte := by
        rw [h, get_behind]
        rfl
      rw [List.length_append, List.length_singleton] at hnext
      rw [skipPath, hget]
      simp only [hbyte, Bool.false_eq_true, if_false]
      rw [hnext]
      simp

theorem slice_at (before path after : Text) :
    slice (before ++ (path ++ after)) before.length (before ++ path).length = some path := by
  rw [slice, if_pos (by simp), ← List.append_assoc, List.take_left, List.drop_left]

/-- The parser reads a path, up to a delimiter or the end. -/
theorem parseType_path {text before path after : Text} (h : text = before ++ (path ++ after))
    (hpath : ∀ byte ∈ path, isDelimiter byte = false) (hafter : after.head?.all isDelimiter = true)
    (fuel : Nat) :
    parseType text (fuel + 1) before.length = (qnameFromText path).bind fun raw_type =>
      match consume text 60 (before ++ path).length with
      | (false, offset) => some (.new raw_type [], offset)
      | (true, offset) => (parseType text fuel offset).bind fun first =>
        (parseMore text fuel first.2).bind fun more =>
          match consume text 62 more.2 with
          | (false, _) => none
          | (true, offset) => some (.new raw_type (first.1 :: more.1), offset) := by
  have hlen : path.length ≤ text.length - before.length := by
    rw [h]
    simp
  have hslice : slice text before.length (before ++ path).length = some path := by
    rw [h]
    exact slice_at before path after
  rw [parseType]
  simp only [skipPath_stops h hpath hafter hlen, hslice, Option.bind_eq_bind, Option.bind_some]

/-! ## What the parser takes is derived -/

theorem consume_true {text before after : Text} {byte : UInt8} {offset : Nat}
    (h : text = before ++ after) (hyes : consume text byte before.length = (true, offset)) :
    ∃ after', after = byte :: after' ∧ offset = (before ++ [byte]).length := by
  cases after with
  | nil =>
    rw [consume_miss h nofun] at hyes
    cases hyes
  | cons b after =>
    by_cases hb : b = byte
    · subst hb
      rw [consume_hit h] at hyes
      exact ⟨after, rfl, (Prod.mk.inj hyes).2.symm⟩
    · rw [consume_miss h (by simpa using hb)] at hyes
      cases hyes

theorem consume_false {text before : Text} {byte : UInt8} {offset : Nat}
    (hno : consume text byte before.length = (false, offset)) : offset = before.length := by
  unfold consume at hno
  split at hno
  · cases hno
  · exact (Prod.mk.inj hno).2.symm

/-- The text up to the first delimiter, and the rest. -/
theorem path_split (rest : Text) :
    ∃ path after, rest = path ++ after ∧ (∀ byte ∈ path, isDelimiter byte = false) ∧
      after.head?.all isDelimiter = true := by
  induction rest with
  | nil => exact ⟨[], [], rfl, List.forall_mem_nil _, rfl⟩
  | cons byte rest ih =>
    cases hbyte : isDelimiter byte with
    | true => exact ⟨[], byte :: rest, rfl, List.forall_mem_nil _, hbyte⟩
    | false =>
      obtain ⟨path, after, rfl, hpath, hafter⟩ := ih
      exact ⟨byte :: path, after, rfl, List.forall_mem_cons.mpr ⟨hbyte, hpath⟩, hafter⟩

theorem parse_sound (text : Text) (fuel : Nat) :
    (∀ before rest ty offset, text = before ++ rest →
      parseType text fuel before.length = some (ty, offset) →
        ∃ part after, rest = part ++ after ∧ offset = (before ++ part).length ∧ Derives part ty) ∧
    ∀ before rest tys offset, text = before ++ rest →
      parseMore text fuel before.length = some (tys, offset) →
        ∃ (parts : List (Text × TypeRef)) (after : Text),
          rest = (parts.flatMap fun part => 44 :: part.1) ++ after ∧
          offset = (before ++ parts.flatMap fun part => 44 :: part.1).length ∧
          tys = parts.map Prod.snd ∧ ∀ part ∈ parts, Derives part.1 part.2 := by
  induction fuel with
  | zero =>
    constructor
    · intro before rest ty offset _ h
      cases h
    · intro before rest tys offset _ h
      cases h
  | succ fuel ih =>
    constructor
    · intro before rest ty offset htext h
      obtain ⟨path, after, rfl, hplain, hafter⟩ := path_split rest
      rw [parseType_path htext hplain hafter] at h
      obtain ⟨raw_type, hraw, h⟩ := Option.bind_eq_some_iff.mp h
      obtain ⟨colons, hroot, rfl, hpath⟩ := (qnameFromText_iff _ _).mp hraw
      rw [← List.append_assoc] at htext
      split at h
      · next offset' hno =>
        obtain ⟨rfl, rfl⟩ := Prod.mk.inj (Option.some.inj h)
        exact ⟨_, after, rfl, consume_false hno, .plain hroot hpath⟩
      · next offset' hyes =>
        obtain ⟨after₁, rfl, rfl⟩ := consume_true htext hyes
        obtain ⟨⟨first, offset₁⟩, hfirst, h⟩ := Option.bind_eq_some_iff.mp h
        obtain ⟨⟨more, offset₂⟩, hmore, h⟩ := Option.bind_eq_some_iff.mp h
        obtain ⟨part, after₂, rfl, rfl, hpart⟩ :=
          ih.1 (before ++ (colons ++ raw_type.text) ++ [60]) after₁ first offset₁
            (by rw [htext]; simp) hfirst
        obtain ⟨parts, after₃, rfl, rfl, rfl, hparts⟩ :=
          ih.2 (before ++ (colons ++ raw_type.text) ++ [60] ++ part) after₂ more offset₂
            (by rw [htext]; simp) hmore
        split at h
        · cases h
        · next offset₃ hclose =>
          have htext₃ : text = before ++ (colons ++ raw_type.text) ++ [60] ++ part ++
              (parts.flatMap fun part => 44 :: part.1) ++ after₃ := by
            rw [htext]
            simp
          obtain ⟨after₄, rfl, rfl⟩ := consume_true htext₃ hclose
          obtain ⟨rfl, rfl⟩ := Prod.mk.inj (Option.some.inj h)
          refine ⟨_, after₄, ?_, ?_, @Derives.applied _ _ hroot hpath (part, first) parts hpart hparts⟩
          · simp
          · simp
    · intro before rest tys offset htext h
      rw [parseMore] at h
      split at h
      · next offset' hno =>
        obtain ⟨rfl, rfl⟩ := Prod.mk.inj (Option.some.inj h)
        exact ⟨[], rest, rfl, by simp [consume_false hno], rfl, List.forall_mem_nil _⟩
      · next offset' hyes =>
        obtain ⟨after, rfl, rfl⟩ := consume_true htext hyes
        obtain ⟨⟨ty, offset₁⟩, hty, h⟩ := Option.bind_eq_some_iff.mp h
        obtain ⟨⟨more, offset₂⟩, hmore, h⟩ := Option.bind_eq_some_iff.mp h
        obtain ⟨rfl, rfl⟩ := Prod.mk.inj (Option.some.inj h)
        obtain ⟨part, after₁, rfl, rfl, hpart⟩ :=
          ih.1 (before ++ [44]) after ty offset₁ (by rw [htext]; simp) hty
        obtain ⟨parts, after₂, rfl, rfl, rfl, hparts⟩ :=
          ih.2 (before ++ [44] ++ part) after₁ more offset₂ (by rw [htext]; simp) hmore
        refine ⟨(part, ty) :: parts, after₂, by simp, by simp, rfl, ?_⟩
        exact List.forall_mem_cons.mpr ⟨hpart, hparts⟩

/-! ## What is derived is parsed -/

/-- A type ends before the text that is left. -/
def Ends (after : Text) : Prop := after = [] ∨ ∃ byte rest, after = byte :: rest ∧
  (byte = 62 ∨ byte = 44)

theorem Ends.delimited {after : Text} (h : Ends after) :
    after.head?.all isDelimiter = true ∧ after.head? ≠ some 60 := by
  rcases h with rfl | ⟨byte, rest, rfl, rfl | rfl⟩
  · exact ⟨rfl, nofun⟩
  · exact ⟨rfl, by simp⟩
  · exact ⟨rfl, by simp⟩

/-- The parser takes the part as the type, wherever it stands, when the fuel
outnumbers what is left. -/
def Parses (part : Text) (ty : TypeRef) : Prop :=
  ∀ text before after fuel, text = before ++ (part ++ after) → Ends after →
    (part ++ after).length < fuel →
      parseType text fuel before.length = some (ty, (before ++ part).length)

theorem parseMore_complete {parts : List (Text × TypeRef)}
    (hparts : ∀ part ∈ parts, Parses part.1 part.2) {text before after : Text} {fuel : Nat}
    (htext : text = before ++ ((parts.flatMap fun part => 44 :: part.1) ++ 62 :: after))
    (hfuel : ((parts.flatMap fun part => 44 :: part.1) ++ 62 :: after).length < fuel) :
    parseMore text fuel before.length =
      some (parts.map Prod.snd, (before ++ parts.flatMap fun part => 44 :: part.1).length) := by
  induction parts generalizing before fuel with
  | nil =>
    cases fuel with
    | zero => cases hfuel
    | succ fuel =>
      rw [parseMore, consume_miss htext (by simp)]
      simp
  | cons part parts ih =>
    obtain ⟨hpart, hparts'⟩ := List.forall_mem_cons.mp hparts
    cases fuel with
    | zero => cases hfuel
    | succ fuel =>
      rw [List.flatMap_cons] at htext hfuel
      simp only [List.length_append, List.length_cons] at hfuel
      have hends : Ends ((parts.flatMap fun part => 44 :: part.1) ++ 62 :: after) := by
        cases parts with
        | nil => exact .inr ⟨62, after, rfl, .inl rfl⟩
        | cons next parts => exact .inr ⟨44, _, rfl, .inr rfl⟩
      have hfirst := hpart text (before ++ [44]) _ fuel (by rw [htext]; simp) hends
        (by simp only [List.length_append, List.length_cons]; omega)
      have hmore := @ih hparts' (before ++ [44] ++ part.1) fuel (by rw [htext]; simp)
        (by simp only [List.length_append, List.length_cons]; omega)
      have hcomma : text = before ++ 44 :: (part.1 ++ ((parts.flatMap fun part => 44 :: part.1) ++
          62 :: after)) := by
        rw [htext]
        simp
      rw [parseMore, consume_hit hcomma]
      simp only [hfirst, hmore, Option.bind_eq_bind, Option.bind_some]
      simp

theorem rooted_plain {colons path : Text} (hroot : IsRoot colons) (hpath : IsPath path) :
    (∀ byte ∈ colons ++ path, isDelimiter byte = false) ∧
      qnameFromText (colons ++ path) = some hpath.qname := by
  refine ⟨fun byte hbyte => ?_, (qnameFromText_iff _ _).mpr ⟨colons, hroot, rfl, hpath⟩⟩
  rcases List.mem_append.mp hbyte with hcolon | hbyte
  · rcases hroot with rfl | rfl
    · cases hcolon
    · obtain rfl : byte = 58 := by simpa using hcolon
      rfl
  · exact (hpath.bytes byte hbyte).2.2

theorem Derives.parses {part : Text} {ty : TypeRef} (h : Derives part ty) : Parses part ty := by
  induction h with
  | plain hroot hpath =>
    intro text before after fuel htext hends hfuel
    obtain ⟨hplain, hqname⟩ := rooted_plain hroot hpath
    obtain ⟨hafter, hmiss⟩ := hends.delimited
    cases fuel with
    | zero => cases hfuel
    | succ fuel =>
      rw [parseType_path htext hplain hafter, hqname, Option.bind_some,
        consume_miss (by rw [htext]; simp) hmiss]
  | @applied colons path hroot hpath first more hfirst hmore ihfirst ihmore =>
    intro text before after fuel htext hends hfuel
    obtain ⟨hplain, hqname⟩ := rooted_plain hroot hpath
    generalize hname : colons ++ path = name at *
    generalize hrest : (more.flatMap fun part => 44 :: part.1) = rest at *
    cases fuel with
    | zero => cases hfuel
    | succ fuel =>
      simp only [List.length_append, List.length_cons, List.length_nil] at hfuel
      have hends' : Ends (rest ++ 62 :: after) := by
        subst hrest
        cases more with
        | nil => exact .inr ⟨62, after, rfl, .inl rfl⟩
        | cons next more => exact .inr ⟨44, _, rfl, .inr rfl⟩
      have hone := ihfirst text (before ++ name ++ [60]) (rest ++ 62 :: after) fuel
        (by rw [htext]; simp) hends'
        (by simp only [List.length_append, List.length_cons]; omega)
      have hothers := @parseMore_complete more ihmore text (before ++ name ++ [60] ++ first.1) after
        fuel (by rw [htext, hrest]; simp)
        (by rw [hrest]; simp only [List.length_append, List.length_cons]; omega)
      rw [hrest] at hothers
      have hpath' : text = before ++ (name ++ 60 :: (first.1 ++ (rest ++ 62 :: after))) := by
        rw [htext]
        simp
      rw [parseType_path hpath' hplain rfl, hqname, Option.bind_some, consume_hit (by
        rw [hpath', ← List.append_assoc])]
      simp only [hone, hothers, Option.bind_some]
      have hclose : text = before ++ name ++ [60] ++ first.1 ++ rest ++ 62 :: after := by
        rw [htext]
        simp
      rw [consume_hit hclose]
      simp

/-- The parser answers with a type exactly when the text is derived, whatever
fuel there is beyond the length of the text. -/
theorem parseWith_iff {fuel : Nat} {text : Text} (hfuel : text.length < fuel) (ty : TypeRef) :
    parseWith fuel text = some ty ↔ Derives text ty := by
  constructor
  · intro h
    obtain ⟨⟨ty', offset⟩, htype, h⟩ := Option.bind_eq_some_iff.mp h
    obtain ⟨part, after, rfl, rfl, hderives⟩ :=
      (parse_sound text fuel).1 [] text ty' offset rfl htype
    replace h : (if ([] ++ part).length = (part ++ after).length then some ty' else none) =
      some ty := h
    split at h
    · next hend =>
      obtain rfl := Option.some.inj h
      have hafter : after = [] := by
        apply List.eq_nil_of_length_eq_zero
        simp only [List.nil_append, List.length_append] at hend
        omega
      rwa [hafter, List.append_nil]
    · cases h
  · intro h
    have hparse := h.parses text [] [] fuel (by simp) (.inl rfl) (by simpa using hfuel)
    replace hparse : parseType text fuel 0 = some (ty, text.length) := hparse
    simp [parseWith, hparse]

/-! ## Printed types -/

mutual

/-- A type as a path and its arguments. -/
def print : TypeRef → Text
  | .new path [] => path.text
  | .new path (first :: more) => path.text ++ 60 :: (print first ++ printMore more ++ [62])

def printMore : List TypeRef → Text
  | [] => []
  | ty :: more => 44 :: (print ty ++ printMore more)

end

mutual

/-- The segments of every path of the type are identifiers. -/
def Identifiers : TypeRef → Prop
  | .new path types => IsPath path.text ∧ AllIdentifiers types

def AllIdentifiers : List TypeRef → Prop
  | [] => True
  | ty :: more => Identifiers ty ∧ AllIdentifiers more

end

mutual

theorem derives_print : (ty : TypeRef) → Identifiers ty → Derives (print ty) ty
  | .new _ [], ⟨hpath, _⟩ => .plain (.inl rfl) hpath
  | .new path (first :: more), ⟨hpath, hfirst, hmore⟩ => by
    obtain ⟨parts, hprint, rfl, hparts⟩ := derives_printMore more hmore
    have happlied := @Derives.applied [] _ (.inl rfl) hpath (print first, first) parts
      (derives_print first hfirst) hparts
    rw [← hprint] at happlied
    exact happlied

theorem derives_printMore : (types : List TypeRef) → AllIdentifiers types →
    ∃ parts : List (Text × TypeRef), printMore types = (parts.flatMap fun part => 44 :: part.1) ∧
      parts.map Prod.snd = types ∧ ∀ part ∈ parts, Derives part.1 part.2
  | [], _ => ⟨[], rfl, rfl, List.forall_mem_nil _⟩
  | ty :: more, ⟨hty, hmore⟩ => by
    obtain ⟨parts, hprint, rfl, hparts⟩ := derives_printMore more hmore
    refine ⟨(print ty, ty) :: parts, ?_, rfl, ?_⟩
    · rw [printMore, hprint]
      rfl
    · exact List.forall_mem_cons.mpr ⟨derives_print ty hty, hparts⟩

end

/-- The parser takes exactly the texts of the grammar, each as the type that
its derivation denotes. A printed type is parsed back. -/
theorem types_are_their_derivations :
    (∀ text ty, parse text = some ty ↔ Derives text ty) ∧
    (∀ text fuel, text.length < fuel → parseWith fuel text = parse text) ∧
    ∀ ty, Identifiers ty → parse (print ty) = some ty := by
  have hparse (text : Text) (ty : TypeRef) : parse text = some ty ↔ Derives text ty :=
    parseWith_iff (Nat.lt_succ_self _) ty
  refine ⟨hparse, fun text fuel hfuel => ?_, fun ty hty => (hparse _ ty).mpr (derives_print ty hty)⟩
  refine Option.ext fun ty => ?_
  rw [parseWith_iff hfuel, hparse]

/-- The type `List<a::B>` is parsed back. -/
theorem a_list_is_parsed :
    parse (print (.new ⟨[76, 105, 115, 116], by decide⟩ [.new ⟨[97, 58, 58, 66], by decide⟩ []])) =
      some (.new ⟨[76, 105, 115, 116], by decide⟩ [.new ⟨[97, 58, 58, 66], by decide⟩ []]) :=
  types_are_their_derivations.2.2 _ ⟨(isQualifiedName_iff _).mp (by decide),
    ⟨(isQualifiedName_iff _).mp (by decide), trivial⟩, trivial⟩

end typetext

end analyzer.model
