-- The laws of the walk over the supertypes of a class: the check finds fault
-- exactly with a missing supertype and with a cycle, and past it the levels are
-- the classes that the declared supertypes lead to, by their distance.
import PureAnalyzer.Attempts
import PureAnalyzer.Layers
import PureAnalyzer.Resolver
import Mathlib.Data.List.Chain

namespace analyzer.resolve.Resolver

open fragments model sortedsets depthfirst layers attempts

variable {graph : ModelGraph}

/-! ## The graph of the supertypes -/

/-- A class declares another one as its supertype. -/
def Supertype (graph : ModelGraph) (owner parent : QName) : Prop :=
  ∃ cls, graph.cls owner = some cls ∧ parent ∈ cls.supertypes

/-- The declared supertypes of one class lead to another. -/
def Reaches (graph : ModelGraph) : QName → QName → Prop :=
  Relation.ReflTransGen (Supertype graph)

/-- A path of different classes of the model, each a declared supertype of the
one before. -/
structure SimplePath (graph : ModelGraph) (origin : QName) (path : List QName) : Prop where
  head : path.head? = some origin
  chain : path.IsChain (Supertype graph)
  nodup : path.Nodup
  present : ∀ v ∈ path, (graph.cls v).isSome = true

/-- The supertypes of a class, in the order of the walk. -/
def supertypesOf (graph : ModelGraph) (path : QName) : List QName :=
  ((graph.cls path).map sortedSupertypes).getD []

theorem mem_supertypesOf {owner parent : QName} :
    parent ∈ supertypesOf graph owner ↔ Supertype graph owner parent := by
  unfold supertypesOf Supertype
  cases graph.cls owner with
  | none => simp
  | some cls => simp [sortedSupertypes]

theorem edge_supertypesOf (graph : ModelGraph) :
    Edge (supertypesOf graph) = Supertype graph := by
  funext owner parent
  exact propext mem_supertypesOf

theorem reaches_iff {origin v : QName} :
    Relation.ReflTransGen (Edge (supertypesOf graph)) origin v ↔ Reaches graph origin v := by
  rw [edge_supertypesOf]
  rfl

theorem supertypesOf_cls {path : QName} {cls : ClassInfo} (h : graph.cls path = some cls) :
    supertypesOf graph path = sortedSupertypes cls := by
  unfold supertypesOf
  rw [h]
  rfl

theorem present_of_not_missing {path : QName} (h : ¬ (graph.cls path).isNone = true) :
    (graph.cls path).isSome = true :=
  Option.ne_none_iff_isSome.mp fun hnone => h (Option.isNone_iff_eq_none.mpr hnone)

/-! ## A check that passes -/

/-- The check has come as far as the search. -/
structure Agrees (graph : ModelGraph) (s : Search QName) (visited stack : List QName) : Prop where
  sound : Sound (supertypesOf graph) s
  path : stack = s.openNodes.reverse
  met : ∀ v, v ∈ visited ↔ v ∈ s.done ∨ v ∈ s.openNodes
  present : ∀ v ∈ visited, (graph.cls v).isSome = true

theorem mem_stack {s : Search QName} {visited stack : List QName}
    (h : Agrees graph s visited stack) {v : QName} : v ∈ stack ↔ v ∈ s.openNodes := by
  rw [h.path, List.mem_reverse]

/-- The check of one supertype after the other. -/
def validateParent (graph : ModelGraph) (room : Nat) (current : QName) (stack : List QName)
    (visited : List QName) (parent : QName) : Except HierarchyFault (List QName) :=
  if (graph.cls parent).isNone then .error (.UnderResolved (.MissingSupertype current parent))
  else validateNode graph room parent visited (stack ++ [current])

theorem findIdx_of_new {current : QName} {stack : List QName} (h : current ∉ stack) :
    stack.findIdx? (· = current) = none := by
  rw [List.findIdx?_eq_none_iff]
  intro v hv
  exact decide_eq_false fun heq => h (heq ▸ hv)

theorem validateNode_visit {room : Nat} {current : QName} {visited stack : List QName}
    {cls : ClassInfo} (hstack : current ∉ stack) (hvisited : current ∉ visited)
    (hcls : graph.cls current = some cls) :
    validateNode graph (room + 1) current visited stack =
      (sortedSupertypes cls).foldlM (validateParent graph room current stack)
        (current :: visited) := by
  rw [validateNode, findIdx_of_new hstack]
  simp only [if_neg hvisited, hcls]
  rfl

theorem Agrees.finish {v : QName} {rest : List (QName × List QName)} {done : Set QName}
    {visited stack : List QName}
    (h : Agrees graph ⟨(v, []) :: rest, done⟩ visited (stack ++ [v])) :
    Agrees graph ⟨rest, insert v done⟩ visited stack := by
  have hpath := h.path
  rw [Search.openNodes, List.map_cons, List.reverse_cons] at hpath
  refine ⟨h.sound.turn .finish, List.append_cancel_right hpath, fun u => ?_, h.present⟩
  rw [h.met, Search.openNodes, List.map_cons, List.mem_cons, Set.mem_insert_iff]
  constructor
  · rintro (hu | rfl | hu)
    · exact .inl (.inr hu)
    · exact .inl (.inl rfl)
    · exact .inr hu
  · rintro ((rfl | hu) | hu)
    · exact .inr (.inl rfl)
    · exact .inl hu
    · exact .inr (.inr hu)

/-- A check that passes all the supertypes left of a class takes the search to
where none is left. -/
theorem foldlM_agrees {room : Nat} {current : QName} {rest : List (QName × List QName)}
    {stack : List QName}
    (hnode : ∀ {parent ws done visited visited'},
      Agrees graph ⟨(current, parent :: ws) :: rest, done⟩ visited (stack ++ [current]) →
      (graph.cls parent).isSome = true →
      validateNode graph room parent visited (stack ++ [current]) = .ok visited' →
      ∃ done', Agrees graph ⟨(current, ws) :: rest, done'⟩ visited' (stack ++ [current]))
    {parents : List QName} {done : Set QName} {visited visited' : List QName}
    (h : Agrees graph ⟨(current, parents) :: rest, done⟩ visited (stack ++ [current]))
    (hok : parents.foldlM (validateParent graph room current stack) visited = .ok visited') :
    ∃ done', Agrees graph ⟨(current, []) :: rest, done'⟩ visited' (stack ++ [current]) := by
  induction parents generalizing done visited with
  | nil =>
    obtain rfl := Except.ok.inj hok
    exact ⟨done, h⟩
  | cons parent parents ih =>
    rw [List.foldlM_cons] at hok
    cases hparent : validateParent graph room current stack visited parent with
    | error fault =>
      rw [hparent] at hok
      cases hok
    | ok between =>
      rw [hparent] at hok
      unfold validateParent at hparent
      split_ifs at hparent with hmissing
      obtain ⟨done', hagrees⟩ := hnode h (present_of_not_missing hmissing) hparent
      exact ih hagrees hok

theorem validateNode_agrees {room : Nat} {v current : QName} {ws : List QName}
    {rest : List (QName × List QName)} {done : Set QName} {visited visited' stack : List QName}
    (h : Agrees graph ⟨(v, current :: ws) :: rest, done⟩ visited stack)
    (hpresent : (graph.cls current).isSome = true)
    (hok : validateNode graph room current visited stack = .ok visited') :
    ∃ done', Agrees graph ⟨(v, ws) :: rest, done'⟩ visited' stack := by
  induction room generalizing v current ws rest done visited visited' stack with
  | zero => cases hok
  | succ room ih =>
    by_cases hstack : current ∈ stack
    · -- a class on the path would have been a cycle
      cases hidx : stack.findIdx? (· = current) with
      | none =>
        rw [List.findIdx?_eq_none_iff] at hidx
        exact absurd rfl (of_decide_eq_false (hidx current hstack))
      | some start =>
        rw [validateNode, hidx] at hok
        cases hok
    by_cases hvisited : current ∈ visited
    · have hdone : current ∈ done :=
        ((h.met current).mp hvisited).resolve_right fun hopen => hstack ((mem_stack h).mpr hopen)
      have hskip : validateNode graph (room + 1) current visited stack = .ok visited := by
        rw [validateNode, findIdx_of_new hstack]
        simp only [if_pos hvisited]
      rw [hskip] at hok
      obtain rfl := Except.ok.inj hok
      exact ⟨done, h.sound.turn (.skip hdone), h.path, h.met, h.present⟩
    · obtain ⟨cls, hcls⟩ := Option.isSome_iff_exists.mp hpresent
      rw [validateNode_visit hstack hvisited hcls, ← supertypesOf_cls hcls] at hok
      have hopen : current ∉ (v :: rest.map Prod.fst) := fun hmem => hstack ((mem_stack h).mpr hmem)
      have hnew : current ∉ done := fun hmem => hvisited ((h.met current).mpr (.inl hmem))
      have henter : Agrees graph
          ⟨(current, supertypesOf graph current) :: (v, ws) :: rest, done⟩
          (current :: visited) (stack ++ [current]) := by
        refine ⟨h.sound.turn (.enter hnew hopen), ?_, fun u => ?_, fun u hu => ?_⟩
        · rw [h.path]
          simp [Search.openNodes]
        · rw [List.mem_cons, h.met]
          simp only [Search.openNodes, List.map_cons, List.mem_cons]
          tauto
        · rcases List.mem_cons.mp hu with rfl | hu
          · exact hpresent
          · exact h.present u hu
      obtain ⟨done', hagrees⟩ := foldlM_agrees ih henter hok
      exact ⟨_, hagrees.finish⟩

/-- Past the check, the classes that are reached are in the model, and none of
them is on a cycle. -/
theorem validateHierarchy_ok {origin : QName} (h : validateHierarchy graph origin = .ok ()) :
    (∀ v, Reaches graph origin v → (graph.cls v).isSome = true) ∧
      ∀ v, Reaches graph origin v → ¬ Relation.TransGen (Supertype graph) v v := by
  unfold validateHierarchy at h
  split at h
  · cases h
  rename_i visited hok
  rw [show MAX_GENERALIZATION_DEPTH = 255 + 1 from rfl] at hok
  cases hcls : graph.cls origin with
  | none =>
    rw [validateNode] at hok
    simp [hcls] at hok
  | some cls =>
    rw [validateNode_visit (List.not_mem_nil) (List.not_mem_nil) hcls, ← supertypesOf_cls hcls] at hok
    have hstart : Agrees graph ⟨[(origin, supertypesOf graph origin)], ∅⟩ [origin]
        ([] ++ [origin]) := by
      refine ⟨⟨?_, fun v hv => absurd hv (Set.notMem_empty v),
        fun v hv => absurd hv (Set.notMem_empty v)⟩, rfl, fun v => ?_, fun v hv => ?_⟩
      · refine ⟨⟨Set.notMem_empty _, List.not_mem_nil⟩, fun t ht => .inl ht, fun t ht => ?_, trivial⟩
        rcases ht with ht | ht
        · exact ht
        · cases ht
      · simp [Search.openNodes]
      · rw [List.mem_singleton.mp hv, hcls]
        rfl
    obtain ⟨done, hagrees⟩ := foldlM_agrees validateNode_agrees hstart hok
    have hend := hagrees.finish
    have hdone : ∀ v, Reaches graph origin v → v ∈ (insert origin done : Set QName) :=
      fun v hv => closed_of_reaches hend.sound.closed (Set.mem_insert _ _) (reaches_iff.mpr hv)
    refine ⟨fun v hv => ?_, fun v hv => ?_⟩
    · exact hend.present v ((hend.met v).mpr (.inl (hdone v hv)))
    · rw [← edge_supertypesOf]
      exact hend.sound.acyclic v (hdone v hv)

/-! ## A check that fails -/

/-- What a fault of the check says about the supertypes of a class. -/
def Explains (graph : ModelGraph) (origin : QName) : HierarchyFault → Prop
  | .Cycle cycle =>
    cycle.IsChain (Supertype graph) ∧ 2 ≤ cycle.length ∧
      cycle.head? = cycle.getLast? ∧ ∀ v ∈ cycle, Reaches graph origin v
  | .UnderResolved (.MissingSupertype owner missing) =>
    Reaches graph origin owner ∧ Supertype graph owner missing ∧ graph.cls missing = none
  | .UnderResolved (.GeneralizationDepth _ limit) =>
    limit = MAX_GENERALIZATION_DEPTH ∧
      ∃ path, SimplePath graph origin path ∧ path.length = MAX_GENERALIZATION_DEPTH
  | .UnderResolved _ => False

/-- The path to a class, and the class behind it. -/
structure OnPath (graph : ModelGraph) (origin : QName) (stack : List QName) (current : QName) :
    Prop where
  head : (stack ++ [current]).head? = some origin
  chain : (stack ++ [current]).IsChain (Supertype graph)
  nodup : stack.Nodup
  present : ∀ v ∈ stack ++ [current], (graph.cls v).isSome = true

theorem reaches_chain {origin : QName} {path : List QName} (head : path.head? = some origin)
    (chain : path.IsChain (Supertype graph)) : ∀ v ∈ path, Reaches graph origin v := by
  induction path generalizing origin with
  | nil => exact List.forall_mem_nil _
  | cons u path ih =>
    obtain rfl : u = origin := Option.some.inj head
    intro v hv
    rcases List.mem_cons.mp hv with rfl | hv
    · exact .refl
    · cases path with
      | nil => cases hv
      | cons w path =>
        obtain ⟨hedge, hrest⟩ := List.isChain_cons_cons.mp chain
        exact .head hedge (ih rfl hrest v hv)

theorem OnPath.extend {origin current parent : QName} {stack : List QName}
    (h : OnPath graph origin stack current) (hnew : current ∉ stack)
    (hedge : Supertype graph current parent)
    (hparent : (graph.cls parent).isSome = true) :
    OnPath graph origin (stack ++ [current]) parent := by
  refine ⟨?_, ?_, ?_, fun v hv => ?_⟩
  · rw [List.head?_append, h.head]
    rfl
  · refine List.isChain_append.mpr ⟨h.chain, List.isChain_singleton _, fun v hv w hw => ?_⟩
    rw [List.getLast?_concat] at hv
    obtain rfl := Option.some.inj hv
    obtain rfl := Option.some.inj hw
    exact hedge
  · rw [List.nodup_append]
    refine ⟨h.nodup, List.nodup_singleton _, fun v hv w hw heq => ?_⟩
    rw [heq, List.mem_singleton.mp hw] at hv
    exact hnew hv
  · rcases List.mem_append.mp hv with hv | hv
    · exact h.present v hv
    · rw [List.mem_singleton.mp hv]
      exact hparent

/-- The path as far as it goes before the class. -/
theorem OnPath.simple {origin current : QName} {stack : List QName}
    (h : OnPath graph origin stack current) (hne : stack ≠ []) : SimplePath graph origin stack := by
  refine ⟨?_, (List.isChain_append.mp h.chain).1, h.nodup, fun v hv => ?_⟩
  · have hhead := h.head
    rwa [List.head?_append, Option.or_of_isSome (by simpa using hne)] at hhead
  · exact h.present v (List.mem_append_left _ hv)

theorem validateNode_error {room : Nat} {origin current : QName} {visited stack : List QName}
    {fault : HierarchyFault} (h : OnPath graph origin stack current)
    (hroom : room + stack.length = MAX_GENERALIZATION_DEPTH)
    (herror : validateNode graph room current visited stack = .error fault) :
    Explains graph origin fault := by
  induction room generalizing current visited stack with
  | zero =>
    obtain rfl := Except.error.inj herror
    have hlen : stack.length = MAX_GENERALIZATION_DEPTH := by omega
    refine ⟨rfl, stack, h.simple ?_, hlen⟩
    rintro rfl
    cases hlen
  | succ room ih =>
    by_cases hstack : current ∈ stack
    · cases hidx : stack.findIdx? (· = current) with
      | none =>
        rw [List.findIdx?_eq_none_iff] at hidx
        exact absurd rfl (of_decide_eq_false (hidx current hstack))
      | some start =>
        -- the path from the first time the class was met closes here
        obtain ⟨hstart, hat, -⟩ := List.findIdx?_eq_some_iff_getElem.mp hidx
        rw [validateNode, hidx] at herror
        obtain rfl := Except.error.inj herror
        have hdrop : stack.drop start ++ [current] = (stack ++ [current]).drop start := by
          rw [List.drop_append_of_le_length (by omega)]
        refine ⟨?_, ?_, ?_, fun v hv => ?_⟩
        · rw [hdrop]
          exact h.chain.drop start
        · simp
          omega
        · rw [List.getLast?_concat, List.head?_append, List.head?_drop,
            List.getElem?_eq_getElem hstart, of_decide_eq_true hat]
          rfl
        · rw [hdrop] at hv
          exact reaches_chain h.head h.chain v (List.mem_of_mem_drop hv)
    by_cases hvisited : current ∈ visited
    · rw [validateNode, findIdx_of_new hstack] at herror
      simp only [if_pos hvisited] at herror
      cases herror
    · have hpresent := h.present current (List.mem_append_right _ List.mem_cons_self)
      obtain ⟨cls, hcls⟩ := Option.isSome_iff_exists.mp hpresent
      rw [validateNode_visit hstack hvisited hcls, ← supertypesOf_cls hcls] at herror
      obtain ⟨parent, hparent, met, hfail⟩ := foldlM_error herror
      unfold validateParent at hfail
      split_ifs at hfail with hmissing
      · obtain rfl := Except.error.inj hfail
        refine ⟨?_, mem_supertypesOf.mp hparent, Option.isNone_iff_eq_none.mp hmissing⟩
        exact reaches_chain h.head h.chain current (List.mem_append_right _ List.mem_cons_self)
      · have hsome := present_of_not_missing hmissing
        apply ih (h.extend hstack (mem_supertypesOf.mp hparent) hsome) _ hfail
        rw [List.length_append, List.length_singleton]
        omega

/-- A fault of the check is there. -/
theorem validateHierarchy_error {origin : QName} {fault : HierarchyFault}
    (hpresent : (graph.cls origin).isSome = true)
    (h : validateHierarchy graph origin = .error fault) : Explains graph origin fault := by
  unfold validateHierarchy at h
  split at h
  · rename_i found hfound
    obtain rfl := Except.error.inj h
    refine validateNode_error ⟨rfl, List.isChain_singleton _, List.nodup_nil, fun v hv => ?_⟩ rfl
      hfound
    rw [List.mem_singleton.mp hv]
    exact hpresent
  · cases h

/-! ## The levels -/

theorem mem_meet (parents : List QName) (sets : List QName × List QName) (w : QName) :
    (w ∈ (meet parents sets).1 ↔ w ∈ sets.1 ∨ w ∈ parents) ∧
      (w ∈ (meet parents sets).2 ↔ w ∈ sets.2 ∨ w ∉ sets.1 ∧ w ∈ parents) := by
  unfold meet
  induction parents generalizing sets with
  | nil => simp
  | cons parent parents ih =>
    rw [List.foldl_cons]
    obtain ⟨hseen, hnext⟩ := ih (if parent ∈ sets.1 then sets
      else (parent :: sets.1, parent :: sets.2))
    rw [hseen, hnext]
    by_cases hmet : parent ∈ sets.1
    · rw [if_pos hmet, List.mem_cons]
      by_cases hw : w = parent
      · subst hw
        simp [hmet]
      · simp [hw]
    · rw [if_neg hmet]
      simp only [List.mem_cons]
      by_cases hw : w = parent
      · subst hw
        simp [hmet]
      · simp [hw]

/-- One turn over a level meets the supertypes of its classes. -/
theorem expand_ok {current : List QName} {sets : List QName × List QName}
    (hpresent : ∀ u ∈ current, (graph.cls u).isSome = true) :
    ∃ sets', expand graph current sets = .ok sets' ∧ ∀ w,
      (w ∈ sets'.1 ↔ w ∈ sets.1 ∨ ∃ u ∈ current, w ∈ supertypesOf graph u) ∧
        (w ∈ sets'.2 ↔
          w ∈ sets.2 ∨ w ∉ sets.1 ∧ ∃ u ∈ current, w ∈ supertypesOf graph u) := by
  induction current generalizing sets with
  | nil => exact ⟨sets, rfl, fun w => by simp⟩
  | cons path rest ih =>
    obtain ⟨cls, hcls⟩ := Option.isSome_iff_exists.mp (hpresent path List.mem_cons_self)
    obtain ⟨sets', hrun, hsets⟩ := @ih (meet (sortedSupertypes cls) sets)
      fun u hu => hpresent u (List.mem_cons_of_mem _ hu)
    refine ⟨sets', ?_, fun w => ?_⟩
    · rw [expand, hcls]
      exact hrun
    · obtain ⟨hseen, hnext⟩ := mem_meet (sortedSupertypes cls) sets w
      rw [(hsets w).1, (hsets w).2, hseen, hnext, ← supertypesOf_cls hcls]
      simp only [List.mem_cons, exists_eq_or_imp]
      tauto

theorem levelsFrom_ok {origin : QName} {turns : Nat} {seen current : List QName}
    {levels : List (List QName)}
    (hpresent : ∀ v, Reaches graph origin v → (graph.cls v).isSome = true)
    (hlayers : Layers (supertypesOf graph) origin levels)
    (hfrontier : Frontier (supertypesOf graph) origin (levels.length - 1) seen current)
    (hlen : 0 < levels.length) :
    ∃ all, levelsFrom graph turns seen current levels = .ok all ∧
      Layers (supertypesOf graph) origin all ∧
      ((∀ n v, AtDistance (supertypesOf graph) origin n v → n < all.length) ∨
        all.length = levels.length + turns) := by
  induction turns generalizing seen current levels with
  | zero => exact ⟨levels, rfl, hlayers, .inr rfl⟩
  | succ turns ih =>
    obtain ⟨sets, hrun, hsets⟩ := @expand_ok graph current (seen, []) fun u hu =>
      hpresent u (reaches_iff.mp ((hfrontier.current u).mp hu).reaches)
    have hnext : ∀ w, w ∈ sortDedup sets.2 ↔
        w ∉ seen ∧ ∃ u ∈ current, w ∈ supertypesOf graph u := by
      intro w
      rw [mem_sortDedup, (hsets w).2]
      simp
    have hseen : ∀ w, w ∈ sets.1 ↔ w ∈ seen ∨ w ∈ sortDedup sets.2 := by
      intro w
      rw [hnext, (hsets w).1]
      tauto
    have hfar := hfrontier.next hnext hseen
    rw [Nat.sub_add_cancel hlen] at hfar
    rw [levelsFrom, hrun]
    simp only
    by_cases hempty : sortDedup sets.2 = []
    · rw [hempty, List.isEmpty_nil, if_pos rfl]
      refine ⟨levels, rfl, hlayers, .inl fun n v hdist => ?_⟩
      by_contra hfarther
      -- a class at this distance or farther would leave the next level occupied
      obtain ⟨u, hu⟩ := hdist.below levels.length (by omega)
      have hmem := (hfar.current u).mpr hu
      rw [hempty] at hmem
      cases hmem
    · rw [if_neg (by simpa using hempty)]
      obtain ⟨all, hall, hlayered, hend⟩ := ih
        (hlayers.snoc hempty (sortDedup_strict _) hfar.current)
        (by rw [List.length_append, List.length_singleton]; exact hfar)
        (by rw [List.length_append, List.length_singleton]; omega)
      refine ⟨all, hall, hlayered, hend.imp_right fun h => ?_⟩
      rw [h, List.length_append, List.length_singleton]
      omega

/-- There are no more layers than classes. -/
theorem distance_lt {origin v : QName} {n : Nat}
    (hpresent : ∀ v, Reaches graph origin v → (graph.cls v).isSome = true)
    (h : AtDistance (supertypesOf graph) origin n v) : n < graph.classes.len := by
  obtain ⟨l, hnodup, hlen, hl⟩ := h.nodes
  have hsub : l ⊆ graph.classes.entries.map Prod.fst := by
    intro u hu
    obtain ⟨m, -, hdist⟩ := hl u hu
    exact SortedMap.mem_keys.mpr (hpresent u (reaches_iff.mp hdist.reaches))
  have hle := (List.subperm_of_subset hnodup hsub).length_le
  rw [List.length_map] at hle
  show n < graph.classes.entries.length
  omega

/-- Past the check, the levels are all the layers of the supertypes. -/
theorem hierarchyLevels_ok {origin : QName} (h : validateHierarchy graph origin = .ok ()) :
    ∃ levels, hierarchyLevels graph origin = .ok levels ∧
      Layers (supertypesOf graph) origin levels ∧
      ∀ n v, AtDistance (supertypesOf graph) origin n v → n < levels.length := by
  obtain ⟨hpresent, -⟩ := validateHierarchy_ok h
  obtain ⟨levels, hrun, hlayers, hend⟩ := @levelsFrom_ok graph origin graph.classes.len
    [origin] [origin] [[origin]] hpresent Layers.start (Frontier.start _ _) Nat.one_pos
  refine ⟨levels, ?_, hlayers, ?_⟩
  · unfold hierarchyLevels
    rw [h]
    exact hrun
  · rcases hend with hall | hlen
    · exact hall
    · -- one layer more than there are classes
      exfalso
      rw [List.length_singleton] at hlen
      obtain ⟨level, hlevel⟩ : ∃ level, levels[graph.classes.len]? = some level :=
        ⟨_, List.getElem?_eq_getElem (by omega)⟩
      obtain ⟨hne, -, hmem⟩ := hlayers _ level hlevel
      obtain ⟨v, hv⟩ := List.exists_mem_of_ne_nil level hne
      exact Nat.lt_irrefl _ (distance_lt hpresent ((hmem v).mp hv))

theorem hierarchyLevels_error {origin : QName} {fault : HierarchyFault}
    (h : hierarchyLevels graph origin = .error fault) :
    validateHierarchy graph origin = .error fault := by
  cases hvalid : validateHierarchy graph origin with
  | error found =>
    unfold hierarchyLevels at h
    rw [hvalid] at h
    rw [Except.error.inj h]
  | ok =>
    obtain ⟨levels, hok, -⟩ := hierarchyLevels_ok hvalid
    rw [hok] at h
    cases h

end analyzer.resolve.Resolver
