import PureAnalyzer.Pushdown
import PureAnalyzer.Pda
import PureAnalyzer.ByteClasses
import PureAnalyzer.PdaLaws
import PureAnalyzer.Brackets
import PureAnalyzer.Mask
import PureAnalyzer.Spec
import PureAnalyzer.EmittedSubset
import PureAnalyzer.EngineEquivalence
import PureAnalyzer.Schema
import PureAnalyzer.Trie
import PureAnalyzer.TrieLaws
import PureAnalyzer.Scope
import PureAnalyzer.Narrow
import PureAnalyzer.NarrowLaws
import PureAnalyzer.ScopeLaws
import PureAnalyzer.Session
import PureAnalyzer.MaskLaws
import PureAnalyzer.SpecLaws
import PureAnalyzer.SessionLaws
import PureAnalyzer.Lexemes
import PureAnalyzer.Reading
import PureAnalyzer.Cuts
import PureAnalyzer.Stream
import PureAnalyzer.CutLaws
import PureAnalyzer.Liveness
import PureAnalyzer.CacheLaws
import PureAnalyzer.Fragments
import PureAnalyzer.ModelTypes
import PureAnalyzer.Relational
import PureAnalyzer.Normalizer
import PureAnalyzer.Positions
import PureAnalyzer.KeyLaws
import PureAnalyzer.NormalForms
import PureAnalyzer.Comparison
import PureAnalyzer.EvidenceLaws
import PureAnalyzer.ComparisonLaws
import PureAnalyzer.Denotation
import PureAnalyzer.Cst
import PureAnalyzer.DenotationLaws
import PureAnalyzer.LinkedArena
import PureAnalyzer.Totality
import PureAnalyzer.Parser
import PureAnalyzer.ParserRules
import PureAnalyzer.ParserLaws
import PureAnalyzer.ParserTrees
import PureAnalyzer.BuilderLaws
import PureAnalyzer.Wrapping
import PureAnalyzer.WrappingLaws
import PureAnalyzer.Document
import PureAnalyzer.Json
import PureAnalyzer.Requests
import PureAnalyzer.Server
import PureAnalyzer.ServerSteps
import PureAnalyzer.ServerLaws
import PureAnalyzer.Frames
import PureAnalyzer.Lockstep
import PureAnalyzer.Bindings
import PureAnalyzer.Literals
import PureAnalyzer.SchemaLaws
import PureAnalyzer.DepthFirst
import PureAnalyzer.Lowering
import PureAnalyzer.GotoLaws
import PureAnalyzer.AcceptLaws
import PureAnalyzer.ShadowLaws
import PureAnalyzer.FixPlan
import PureAnalyzer.FixPlanLaws
import PureAnalyzer.NormalizerLaws
import PureAnalyzer.Parameters
import PureAnalyzer.Operators
import PureAnalyzer.OperatorRules
import PureAnalyzer.OperatorLaws
import PureAnalyzer.MaskRuns
import PureAnalyzer.BinarySearch
import PureAnalyzer.TrieWalks
import PureAnalyzer.CodeEdits
import PureAnalyzer.StoreRuns
import PureAnalyzer.Lexer
import PureAnalyzer.TypeText
import PureAnalyzer.CommentLaws
import PureAnalyzer.FixOrder
import PureAnalyzer.Grouping
import PureAnalyzer.Loader
import PureAnalyzer.LoaderLaws
import PureAnalyzer.HierarchyLaws
import PureAnalyzer.MemberLaws
import PureAnalyzer.ExtensionLaws
import PureAnalyzer.RollbackLaws
import PureAnalyzer.FramingLaws
import PureAnalyzer.DomainTrees
import PureAnalyzer.LoadRuns
import PureAnalyzer.LoadedClasses
import PureAnalyzer.Answers
import PureAnalyzer.LoaderParity
