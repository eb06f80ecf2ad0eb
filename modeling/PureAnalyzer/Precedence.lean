-- Operators of different strengths between operands, and how they nest. Every
-- sequence has exactly one nesting in which operators of one strength in a
-- row stand side by side and every part between them holds only stronger ones.
import Mathlib.Data.List.Basic
import Mathlib.Data.List.Induction

namespace precedence

variable {ω α : Type}

/-- An operand, or a run: parts in a row with operators between them. A run
starts with two parts, and each next part follows one more operator. -/
inductive Nesting (ω α : Type) where
  | operand (a : α)
  | start (first : Nesting ω α) (op : ω) (second : Nesting ω α)
  | next (run : Nesting ω α) (op : ω) (part : Nesting ω α)
deriving DecidableEq, Repr

namespace Nesting

/-! ## Reading a nesting from the left -/

def first : Nesting ω α → α
  | operand a => a
  | start first _ _ => first.first
  | next run _ _ => run.first

/-- The operators behind the first operand, each with the operand behind it. -/
def rest : Nesting ω α → List (ω × α)
  | operand _ => []
  | start first op second => first.rest ++ (op, second.first) :: second.rest
  | next run op part => run.rest ++ (op, part.first) :: part.rest

def operands (n : Nesting ω α) : List α := n.first :: n.rest.map Prod.snd

/-- The last operator of the outermost run. -/
def top : Nesting ω α → Option ω
  | operand _ => none
  | start _ op _ => some op
  | next _ op _ => some op

variable (level : ω → Nat)

/-- The outermost run is of this level or a stronger one. -/
def AtLeast (m : Nat) (n : Nesting ω α) : Prop := ∀ op ∈ n.top, m ≤ level op

/-- The operators of every run are of one level, and its parts are operands or
runs of stronger operators. -/
def Proper : Nesting ω α → Prop
  | operand _ => True
  | start first op second => first.Proper ∧ second.Proper ∧
      first.AtLeast level (level op + 1) ∧ second.AtLeast level (level op + 1)
  | next run op part => run.Proper ∧ run.top.map level = some (level op) ∧
      part.Proper ∧ part.AtLeast level (level op + 1)

/-! ## Putting parts together -/

/-- Puts a part behind, in the outermost run if that is of the same level. -/
def join (n : Nesting ω α) (op : ω) (part : Nesting ω α) : Nesting ω α :=
  if n.top.map level = some (level op) then next n op part else start n op part

/-- Puts an operand behind. A stronger operator takes the last part with it. -/
def snoc : Nesting ω α → ω → α → Nesting ω α
  | operand b, op, a => (operand b).join level op (operand a)
  | start first o second, op, a =>
    if level o < level op then start first o (second.snoc op a)
    else (start first o second).join level op (operand a)
  | next run o part, op, a =>
    if level o < level op then next run o (part.snoc op a)
    else (next run o part).join level op (operand a)

/-- The nesting of a sequence. -/
def nest (a : α) (rest : List (ω × α)) : Nesting ω α :=
  rest.foldl (fun n p => n.snoc level p.1 p.2) (operand a)

variable {level} {m : Nat} {n : Nesting ω α} {op : ω} {a b : α}

theorem AtLeast.mono {m' : Nat} (h : n.AtLeast level m) (hle : m' ≤ m) : n.AtLeast level m' :=
  fun op hop => Nat.le_trans hle (h op hop)

theorem atLeast_of_top (h : n.top.map level = some (level op)) : n.AtLeast level (level op) := by
  intro o ho
  rw [Option.mem_def.mp ho, Option.map_some, Option.some_inj] at h
  exact Nat.le_of_eq h.symm

theorem atLeast_operand (a : α) : (operand a : Nesting ω α).AtLeast level m := nofun

@[simp] theorem join_first (part : Nesting ω α) : (n.join level op part).first = n.first := by
  unfold join
  split <;> rfl

@[simp] theorem join_rest (part : Nesting ω α) :
    (n.join level op part).rest = n.rest ++ (op, part.first) :: part.rest := by
  unfold join
  split <;> rfl

@[simp] theorem join_top (part : Nesting ω α) : (n.join level op part).top = some op := by
  unfold join
  split <;> rfl

/-- A part may stand behind an operator that is not stronger than the run
before it. -/
theorem join_proper {part : Nesting ω α} (hn : n.Proper level) (hle : n.AtLeast level (level op))
    (hpart : part.Proper level) (hstronger : part.AtLeast level (level op + 1)) :
    (n.join level op part).Proper level := by
  unfold join
  by_cases htop : n.top.map level = some (level op)
  · rw [if_pos htop]
    exact ⟨hn, htop, hpart, hstronger⟩
  · rw [if_neg htop]
    refine ⟨hn, hpart, fun o ho => ?_, hstronger⟩
    have hne : level o ≠ level op := by
      intro heq
      apply htop
      rw [Option.mem_def.mp ho, Option.map_some, heq]
    have hge := hle o ho
    omega

theorem snoc_first : (n.snoc level op a).first = n.first := by
  cases n with
  | operand b => exact join_first _
  | start f o s =>
    unfold snoc
    split
    · rfl
    · exact join_first _
  | next r o p =>
    unfold snoc
    split
    · rfl
    · exact join_first _

theorem snoc_rest : (n.snoc level op a).rest = n.rest ++ [(op, a)] := by
  induction n with
  | operand b => exact join_rest _
  | start f o s _ ih =>
    unfold snoc
    split
    · simp [rest, snoc_first, ih]
    · exact join_rest _
  | next r o p _ ih =>
    unfold snoc
    split
    · simp [rest, snoc_first, ih]
    · exact join_rest _

theorem snoc_atLeast (h : n.AtLeast level m) (hop : m ≤ level op) :
    (n.snoc level op a).AtLeast level m := by
  have hjoin : ∀ part, (n.join level op part).AtLeast level m := by
    intro part o ho
    rw [join_top, Option.mem_some_iff] at ho
    rwa [← ho]
  cases n with
  | operand b => exact hjoin _
  | start f o s =>
    unfold snoc
    split
    · exact h
    · exact hjoin _
  | next r o p =>
    unfold snoc
    split
    · exact h
    · exact hjoin _

/-- An operand may stand behind an operator that is not stronger than the last one. -/
theorem join_operand_proper {o : ω} (h : n.Proper level) (htop : n.top = some o)
    (hle : ¬level o < level op) : (n.join level op (operand a)).Proper level := by
  refine join_proper h (fun o' ho' => ?_) trivial (atLeast_operand a)
  rw [htop, Option.mem_some_iff] at ho'
  rw [← ho']
  exact Nat.le_of_not_lt hle

theorem snoc_proper (h : n.Proper level) : (n.snoc level op a).Proper level := by
  induction n with
  | operand b => exact join_proper trivial (atLeast_operand b) trivial (atLeast_operand a)
  | start f o s _ ih =>
    unfold snoc
    by_cases hless : level o < level op
    · rw [if_pos hless]
      obtain ⟨hf, hs, hfo, hso⟩ := h
      exact ⟨hf, ih hs, hfo, snoc_atLeast hso hless⟩
    · rw [if_neg hless]
      exact join_operand_proper h rfl hless
  | next r o p _ ih =>
    unfold snoc
    by_cases hless : level o < level op
    · rw [if_pos hless]
      obtain ⟨hr, htop, hp, hpo⟩ := h
      exact ⟨hr, htop, ih hp, snoc_atLeast hpo hless⟩
    · rw [if_neg hless]
      exact join_operand_proper h rfl hless

/-! ## Every sequence has its nesting -/

theorem nest_snoc (rest : List (ω × α)) :
    nest level a (rest ++ [(op, b)]) = (nest level a rest).snoc level op b := by
  simp [nest]

theorem nest_first (a : α) (rest : List (ω × α)) : (nest level a rest).first = a := by
  induction rest using List.reverseRecOn with
  | nil => rfl
  | append_singleton rest p ih => rw [nest_snoc, snoc_first, ih]

theorem nest_rest (a : α) (rest : List (ω × α)) : (nest level a rest).rest = rest := by
  induction rest using List.reverseRecOn with
  | nil => rfl
  | append_singleton rest p ih => rw [nest_snoc, snoc_rest, ih]

theorem nest_proper (a : α) (rest : List (ω × α)) : (nest level a rest).Proper level := by
  induction rest using List.reverseRecOn with
  | nil => trivial
  | append_singleton rest p ih =>
    rw [nest_snoc]
    exact snoc_proper ih

/-! ## and no other -/

/-- In a proper nesting no operator is weaker than those of the outermost run. -/
theorem AtLeast.rest (h : n.AtLeast level m) (hn : n.Proper level) :
    ∀ p ∈ n.rest, m ≤ level p.1 := by
  induction n generalizing m with
  | operand b => nofun
  | start f o s ihf ihs =>
    obtain ⟨hf, hs, hfo, hso⟩ := hn
    have ho : m ≤ level o := h o rfl
    intro p hp
    simp only [Nesting.rest, List.mem_append, List.mem_cons] at hp
    rcases hp with hp | rfl | hp
    · have := ihf hfo hf p hp
      omega
    · exact ho
    · have := ihs hso hs p hp
      omega
  | next r o s ihr ihs =>
    obtain ⟨hr, htop, hs, hso⟩ := hn
    have ho : m ≤ level o := h o rfl
    have hro := atLeast_of_top htop
    intro p hp
    simp only [Nesting.rest, List.mem_append, List.mem_cons] at hp
    rcases hp with hp | rfl | hp
    · have := ihr hro hr p hp
      omega
    · exact ho
    · have := ihs hso hs p hp
      omega

/-- What follows a part with a stronger operator goes into the part. -/
theorem join_snoc {part : Nesting ω α} {op' : ω} (hless : level op < level op') :
    (n.join level op part).snoc level op' a = n.join level op (part.snoc level op' a) := by
  unfold join
  split
  · rw [snoc, if_pos hless]
  · rw [snoc, if_pos hless]

theorem join_foldl {part : Nesting ω α} {rest : List (ω × α)}
    (hless : ∀ p ∈ rest, level op < level p.1) :
    rest.foldl (fun n p => n.snoc level p.1 p.2) (n.join level op part) =
      n.join level op (rest.foldl (fun n p => n.snoc level p.1 p.2) part) := by
  induction rest generalizing part with
  | nil => rfl
  | cons p rest ih =>
    rw [List.foldl_cons, List.foldl_cons, join_snoc (hless p List.mem_cons_self)]
    exact ih fun q hq => hless q (List.mem_cons_of_mem _ hq)

/-- Behind a run that is not weaker, an operand starts a part of its own. -/
theorem snoc_eq_join (h : n.AtLeast level (level op)) :
    n.snoc level op a = n.join level op (operand a) := by
  cases n with
  | operand b => rfl
  | start f o s => rw [snoc, if_neg (Nat.not_lt.mpr (h o rfl))]
  | next r o p => rw [snoc, if_neg (Nat.not_lt.mpr (h o rfl))]

/-- Reading a part behind a nesting puts it there as it is. -/
theorem nest_join {part : Nesting ω α} (h : n.AtLeast level (level op))
    (hpart : part.Proper level) (hstronger : part.AtLeast level (level op + 1))
    (hnest : nest level part.first part.rest = part) :
    part.rest.foldl (fun n p => n.snoc level p.1 p.2) (n.snoc level op part.first) =
      n.join level op part := by
  rw [snoc_eq_join h, join_foldl (hstronger.rest hpart)]
  exact congrArg _ hnest

theorem nest_eq (h : n.Proper level) : nest level n.first n.rest = n := by
  have hfold : ∀ (a : α) (xs : List (ω × α)) (p : ω × α) (ys : List (ω × α)),
      nest level a (xs ++ p :: ys) =
        ys.foldl (fun n p => n.snoc level p.1 p.2) ((nest level a xs).snoc level p.1 p.2) := by
    intro a xs p ys
    simp [nest]
  induction n with
  | operand b => rfl
  | start f o s ihf ihs =>
    obtain ⟨hf, hs, hfo, hso⟩ := h
    rw [first, rest, hfold, ihf hf, nest_join (hfo.mono (Nat.le_succ _)) hs hso (ihs hs), join,
      if_neg]
    intro htop
    obtain ⟨o', ho', heq⟩ := Option.map_eq_some_iff.mp htop
    have := hfo o' ho'
    omega
  | next r o p ihr ihp =>
    obtain ⟨hr, htop, hp, hpo⟩ := h
    have hro := atLeast_of_top htop
    rw [first, rest, hfold, ihr hr, nest_join hro hp hpo (ihp hp), join, if_pos htop]

/-- A sequence has exactly one proper nesting. -/
theorem existsUnique_proper (a : α) (rest : List (ω × α)) :
    ∃! n : Nesting ω α, n.Proper level ∧ n.first = a ∧ n.rest = rest := by
  refine ⟨nest level a rest, ⟨nest_proper a rest, nest_first a rest, nest_rest a rest⟩, ?_⟩
  rintro n ⟨hn, rfl, rfl⟩
  exact (nest_eq hn).symm

/-! ## One operator after the other -/

/-- The operators on the way down to the first operand, from there up, each
with the part behind it. -/
def spine : Nesting ω α → List (ω × Nesting ω α)
  | operand _ => []
  | start first op second => first.spine ++ [(op, second)]
  | next run op part => run.spine ++ [(op, part)]

/-- The parts put together from the left. -/
def joins (level : ω → Nat) (n : Nesting ω α) (parts : List (ω × Nesting ω α)) : Nesting ω α :=
  parts.foldl (fun n p => n.join level p.1 p.2) n

theorem joins_spine (h : n.Proper level) : (operand n.first).joins level n.spine = n := by
  have hlast : ∀ (b : Nesting ω α) (xs : List (ω × Nesting ω α)) (o : ω) (part : Nesting ω α),
      b.joins level (xs ++ [(o, part)]) = (b.joins level xs).join level o part := by
    intro b xs o part
    simp [joins]
  induction n with
  | operand b => rfl
  | start f o s ihf _ =>
    obtain ⟨hf, -, hfo, -⟩ := h
    rw [first, spine, hlast, ihf hf, join, if_neg]
    intro htop
    obtain ⟨o', ho', heq⟩ := Option.map_eq_some_iff.mp htop
    have := hfo o' ho'
    omega
  | next r o p ihr _ =>
    obtain ⟨hr, htop, -, -⟩ := h
    rw [first, spine, hlast, ihr hr, join, if_pos htop]

theorem rest_eq_spine (n : Nesting ω α) :
    n.rest = n.spine.flatMap fun p => (p.1, p.2.first) :: p.2.rest := by
  induction n with
  | operand b => rfl
  | start f o s ihf _ => simp [rest, spine, ihf]
  | next r o p ihr _ => simp [rest, spine, ihr]

theorem spine_parts (h : n.Proper level) :
    ∀ p ∈ n.spine, p.2.Proper level ∧ p.2.AtLeast level (level p.1 + 1) := by
  induction n with
  | operand b => nofun
  | start f o s ihf _ =>
    obtain ⟨hf, hs, -, hso⟩ := h
    intro p hp
    rcases List.mem_append.mp hp with hp | hp
    · exact ihf hf p hp
    · rw [List.mem_singleton.mp hp]
      exact ⟨hs, hso⟩
  | next r o s ihr _ =>
    obtain ⟨hr, -, hs, hso⟩ := h
    intro p hp
    rcases List.mem_append.mp hp with hp | hp
    · exact ihr hr p hp
    · rw [List.mem_singleton.mp hp]
      exact ⟨hs, hso⟩

theorem spine_atLeast (h : n.AtLeast level m) (hn : n.Proper level) :
    ∀ p ∈ n.spine, m ≤ level p.1 := by
  intro p hp
  refine h.rest hn (p.1, p.2.first) ?_
  rw [rest_eq_spine]
  exact List.mem_flatMap.mpr ⟨p, hp, List.mem_cons_self⟩

/-- On the way up the operators get no stronger. -/
theorem spine_pairwise (h : n.Proper level) :
    n.spine.Pairwise fun p q => level q.1 ≤ level p.1 := by
  induction n with
  | operand b => exact .nil
  | start f o s ihf _ =>
    obtain ⟨hf, -, hfo, -⟩ := h
    refine List.pairwise_append.mpr ⟨ihf hf, List.pairwise_singleton _ _, fun p hp q hq => ?_⟩
    rw [List.mem_singleton.mp hq]
    exact Nat.le_of_succ_le (spine_atLeast hfo hf p hp)
  | next r o p ihr _ =>
    obtain ⟨hr, htop, -, -⟩ := h
    refine List.pairwise_append.mpr ⟨ihr hr, List.pairwise_singleton _ _, fun p hp q hq => ?_⟩
    rw [List.mem_singleton.mp hq]
    exact spine_atLeast (atLeast_of_top htop) hr p hp

end Nesting

end precedence
