-- From the text of a Domain source to its complete classes (`pure.rs`): a class is
-- handed on as complete exactly when the whole file is understood and one of its
-- declarations, that nothing speaks against, reads as this class.
import PureAnalyzer.PureSourceLaws

namespace analyzer.pure_source

open fragments model cst diagnostics loader domain m3

/-! ## Sources -/

/-- Nothing below the declaration was skipped. -/
structure Unbroken (decl : GreenNode) : Prop where
  nodes : ∀ node ∈ decl.nodes, node.kind ≠ .Node .ErrorNode ∧ node.kind ≠ .Node .DomainOpaqueNode
  tokens : ∀ token ∈ decl.tokens, token.kind ≠ .Token .Error

theorem reported_touches {d : m3.Diagnostic} {range outer : TextRange}
    (hspan : d.primary.span = range) (hstart : outer.start ≤ range.start)
    (hstop : range.stop ≤ outer.stop) :
    rangesTouchOrOverlap d.primary.span outer = true := by
  have hordered := range.ordered
  simp only [rangesTouchOrOverlap, hspan, Bool.and_eq_true, decide_eq_true_eq]
  omega

/-- What the elements of a source say about its text. -/
structure Reading (source : Nat) (parsed : DomainParse) (file : GreenNode)
    (fragment : ModelFragment) : Prop where
  /-- A complete class reads from one declaration of an understood file. -/
  complete : ∀ path cls,
    (fragment.elements.map.get path = some (.Class cls) ∧ cls.coverage_gap = false) ↔
      Understood (contextOf parsed source) file ∧
        ∃ decl ∈ directNodes file .DomainClassDecl, cls.path = path ∧
          ∃ name_index, Reads (contextOf parsed source) decl name_index cls
  /-- No region at the top of an understood file was kept as it is. -/
  supported : Understood (contextOf parsed source) file →
    ∀ element ∈ file.children, InFile element ∧ ¬OfKind .DomainOpaqueNode element
  /-- A declaration that nothing speaks against was read without an error. -/
  unbroken : ∀ decl ∈ file.childNodes,
    (contextOf parsed source).nodeHasCoverageGap decl = false → Unbroken decl

theorem reading_of_source (lex : Text → List Token) (source_name text : Text) (source : Nat)
    (hlex : Tiles text 0 (lex text)) (hshort : text.length < 2 ^ 32) :
    ∃ parsed fragment file,
      parseDomain lex text source = some (.ok parsed) ∧
      parsePureDocument lex source_name text source = some (.ok fragment) ∧
      findDomainFile parsed.green = some file ∧ Reading source parsed file fragment := by
  obtain ⟨p, es, elements, range, hrun, hparsed, hgreen, hin, -, hmade, hencloses⟩ :=
    parseDomain_built lex text source hlex hshort
  let file : GreenNode := .new (.Node .DomainFile) elements range
  have hfile : findDomainFile p.green = some file := by
    rw [hgreen]
    rfl
  have hbelow : ∀ decl ∈ file.childNodes,
      (∀ node ∈ decl.nodes, node ∈ nodesOf p.green.children) ∧
        ∀ token ∈ decl.tokens, token ∈ tokensOf p.green.children := by
    intro decl hdecl
    obtain ⟨hnodes, htokens⟩ := below_childNodes hdecl
    rw [hgreen]
    refine ⟨fun node hnode => ?_, fun token htoken => ?_⟩
    · exact List.mem_append_left _ (List.mem_cons_of_mem _ (hnodes node hnode))
    · exact List.mem_append_left _ (htokens token htoken)
  refine ⟨p, fragmentOf p source, file, hrun, ?_, hfile, fun path cls => ?_, fun h => ?_, ?_⟩
  · rw [parsePureDocument, hrun]
    rfl
  · have hiff := @complete_class_iff (contextOf p source) p.green
      (fun file' hfile' decl hdecl => ?_) path cls
    · refine hiff.trans ⟨?_, fun h => ⟨file, hfile, h⟩⟩
      rintro ⟨file', hfile', h⟩
      obtain rfl := Option.some.inj (hfile.symm.trans hfile')
      exact h
    · obtain rfl := Option.some.inj (hfile.symm.trans hfile')
      exact hencloses decl ((hbelow decl hdecl).1 decl (mem_nodes_self decl))
  · exact fun element helement => ⟨(hin element helement).1, fun hopaque =>
      h.supported ((hin element helement).2 hopaque)⟩
  · intro decl hdecl huntouched
    obtain ⟨hnodes, htokens⟩ := hbelow decl hdecl
    have hwithin := hencloses decl (hnodes decl (mem_nodes_self decl))
    obtain ⟨hgaps, hdiagnostics⟩ := (untouched_iff _ _).mp huntouched
    refine ⟨fun node hnode => ?_, fun token htoken hkind => ?_⟩
    · refine not_or.mp fun hfaulty => ?_
      obtain ⟨kind, a, b, hkind, hheld, hstart, hstop⟩ := hmade.nodes node (hnodes node hnode)
      have hfaulty' : Faulty kind := by
        rw [hkind] at hfaulty
        exact hfaulty.imp (fun h => SyntaxKind.Node.inj h) fun h => SyntaxKind.Node.inj h
      obtain ⟨gap, hgap, hfrom, hto⟩ := hheld hfaulty'
      have hbounds := hwithin.nodes node hnode
      have hordered := node.textRange.ordered
      refine Bool.eq_false_iff.mp (hgaps gap hgap) ?_
      simp only [rangesTouchOrOverlap, Bool.and_eq_true, decide_eq_true_eq]
      omega
    · have htoken' := htokens token htoken
      rw [hmade.held, List.take_length, List.drop_zero] at htoken'
      obtain ⟨⟨kind, span⟩, hmem, rfl⟩ := List.mem_map.mp htoken'
      obtain rfl : kind = .Error := by simpa [greenToken, GreenToken.new] using hkind
      obtain ⟨d, hd, -, hspan⟩ := hparsed.bad span hmem
      obtain ⟨hstart, hstop⟩ := hwithin.tokens _ htoken
      exact Bool.eq_false_iff.mp (hdiagnostics d hd) (reported_touches hspan hstart hstop)

/-- A class with one property. -/
def sampleSource : Text := ascii "Class m::A\x7ba: String[1];\x7d"

/-- The tokens that the lexer makes of it. -/
def sampleTokens : List Token :=
  [spannedToken .Ident 0 5, spannedToken .Whitespace 5 1, spannedToken .Ident 6 1,
    spannedToken .PathSeparator 7 2, spannedToken .Ident 9 1, spannedToken .BraceOpen 10 1,
    spannedToken .Ident 11 1, spannedToken .Colon 12 1, spannedToken .Whitespace 13 1,
    spannedToken .Ident 14 6, spannedToken .BracketOpen 20 1, spannedToken .Integer 21 1,
    spannedToken .BracketClose 22 1, spannedToken .Semicolon 23 1, spannedToken .BraceClose 24 1]

def lexSample (text : Text) : List Token := if text = sampleSource then sampleTokens else []

theorem sample_lexed : Tiles sampleSource 0 (lexSample sampleSource) := by decide

theorem sampleSourcePath_valid : (QName.validate (ascii "m::A")).isOk = true := by decide

def sampleSourcePath : QName := ⟨ascii "m::A", sampleSourcePath_valid⟩

end analyzer.pure_source
