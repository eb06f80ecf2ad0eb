-- The emitted Pure grammar as a spec (`grammar/emitted_subset.json`): the
-- same language as the automaton of `Pda.lean`, written as rules.
import PureAnalyzer.Spec

namespace purecard.emitted_subset

open pda spec

/-- A rule with no guard. -/
def on (byte_test : ByteTest) (action : Action) : TransitionRule := ⟨byte_test, .Always, action⟩

/-- A rule under a guard. -/
def when (byte_test : ByteTest) (guard : Guard) (action : Action) : TransitionRule :=
  ⟨byte_test, guard, action⟩

def EMITTED_STATES : List (String × StateSpec) :=
  [("AfterArrow", ⟨false,
      [on .Whitespace (.Next "AfterArrow"),
       on .IdentStart (.Next "InArrowIdent")]⟩),
   ("AfterArrowName", ⟨false,
      [on .Whitespace (.Next "AfterArrowName"),
       on (.Exact '(') (.Push "Paren" "ExpectValue")]⟩),
   ("AfterBinder", ⟨false,
      [on .Whitespace (.Next "AfterBinder"),
       on (.Exact '=') (.Next "ExpectBinderValue")]⟩),
   ("AfterBinderMult", ⟨false,
      [on .Whitespace (.Next "AfterBinderMult"),
       on (.Exact '|') (.Next "ExpectLambdaBody"),
       when (.Exact ',') (.StackTopIs "BraceLambda") (.Next "ExpectBraceBinder")]⟩),
   ("AfterBinderMultToken", ⟨false,
      [on .Whitespace (.Next "AfterBinderMultToken"),
       when (.Exact ']') (.StackTopIs "Bracket") (.Pop "AfterBinderMult")]⟩),
   ("AfterBinderType", ⟨false,
      [on .Whitespace (.Next "AfterBinderType"),
       on (.Exact ':') (.Next "BinderTypeColon"),
       on (.Exact '[') (.Push "Bracket" "ExpectBinderMult"),
       on (.Exact '|') (.Next "ExpectLambdaBody")]⟩),
   ("AfterBinderTypePath", ⟨false,
      [on .Whitespace (.Next "AfterBinderTypePath"),
       on (.Exact ':') (.Next "BinderTypeColon"),
       on (.Exact '[') (.Push "Bracket" "ExpectBinderMult")]⟩),
   ("AfterBraceOpen", ⟨false,
      [on .Whitespace (.Next "AfterBraceOpen"),
       on (.Exact '|') (.Next "BlockStmt")]⟩),
   ("AfterColon", ⟨false,
      [on (.Exact ':') (.Next "AfterColon2"),
       when .Whitespace (.StackTopIsNot "Brace") (.Next "AfterColonWs"),
       when .IdentStart (.StackTopIsNot "Brace") (.Next "InBinderType"),
       when (.Exact '{') (.StackTopIsNot "Brace") (.Push "BraceLambda" "ExpectBraceBinder")]⟩),
   ("AfterColon2", ⟨false,
      [on .IdentStart (.Next "InIdent")]⟩),
   ("AfterColonWs", ⟨false,
      [on .Whitespace (.Next "AfterColonWs"),
       on .IdentStart (.Next "InBinderType"),
       on (.Exact '{') (.Push "BraceLambda" "ExpectBraceBinder")]⟩),
   ("AfterDollar", ⟨false,
      [on .IdentStart (.Next "InMemberIdent")]⟩),
   ("AfterDot", ⟨false,
      [on .Whitespace (.Next "AfterDot"),
       on .IdentStart (.Next "InMemberIdent"),
       on (.Exact QUOTE) (.Next "InStrLit")]⟩),
   ("AfterMemberName", ⟨true,
      [on .Whitespace (.Next "AfterMemberName"),
       on (.Exact '(') (.Push "Paren" "ExpectValue"),
       on .Any (.Goto "AfterValue")]⟩),
   ("AfterName", ⟨true,
      [on .Whitespace (.Next "AfterName"),
       on (.Exact '(') (.Push "Paren" "ExpectValue"),
       on (.Exact '|') (.Next "SawPipe"),
       on (.Exact ':') (.Next "AfterColon"),
       on .Any (.Goto "AfterValue")]⟩),
   ("AfterRelAggReduceBinder", ⟨false,
      [on .Whitespace (.Next "AfterRelAggReduceBinder"),
       on (.Exact '|') (.Next "SawPipe")]⟩),
   ("AfterRelColColon", ⟨false,
      [on .Whitespace (.Next "AfterRelColColon"),
       on (.Exact '{') (.Push "BraceLambda" "ExpectBraceBinder"),
       on .IdentStart (.Next "InRelColLambdaBinder")]⟩),
   ("AfterRelColLambdaBinder", ⟨false,
      [on .Whitespace (.Next "AfterRelColLambdaBinder"),
       on (.Exact '|') (.Next "SawPipe")]⟩),
   ("AfterRelColName", ⟨true,
      [on .Whitespace (.Next "AfterRelColName"),
       on (.Exact ':') (.Next "AfterRelColColon"),
       on (.Exact '|') .Dead,
       on .Any (.Goto "AfterValue")]⟩),
   ("AfterStrLit", ⟨true,
      [on .Whitespace (.Next "AfterStrLit"),
       on (.Exact '|') (.Next "SawPipe"),
       on (.Exact ':') (.Next "AfterColon"),
       on .Any (.Goto "AfterValue")]⟩),
   ("AfterValue", ⟨true,
      [on .Whitespace (.Next "AfterValue"),
       on (.Exact '-') (.Next "SawDash"),
       on (.Exact '>') (.Next "SawGt"),
       on (.Exact '<') (.Next "SawLt"),
       on (.Exact '=') (.Next "SawEq"),
       on (.Exact '!') (.Next "SawBang"),
       on (.Exact '&') (.Next "SawAmp"),
       on (.Exact '|') (.Next "SawValuePipe"),
       on (.OneOf (lit "+*/")) (.Next "ExpectValueReq"),
       on (.Exact '.') (.Next "AfterDot"),
       when (.Exact ':') (.StackTopIsNot "Brace") (.Next "AfterValueColon"),
       when (.Exact ',') (.StackTopIs "Group") .Dead,
       when (.Exact ',') (.StackTopIs "RelColBracket") (.Next "ExpectRelColSpecReq"),
       when (.Exact ',') (.StackTopIsNot "Brace") (.Next "ExpectValueReq"),
       when (.Exact ';') (.StackTopIs "Brace") (.Next "BlockStmtClose"),
       when (.Exact ')') (.StackTopIs "Paren") (.Pop "AfterValue"),
       when (.Exact ')') (.StackTopIs "Group") (.Pop "AfterValue"),
       when (.Exact ']') (.StackTopIs "Bracket") (.Pop "AfterValue"),
       when (.Exact ']') (.StackTopIs "RelColBracket") (.Pop "AfterValue"),
       when (.Exact '}') (.StackTopIs "Brace") (.Pop "AfterValue"),
       when (.Exact '}') (.StackTopIs "BraceLambda") (.Pop "AfterValue")]⟩),
   ("AfterValueColon", ⟨false,
      [on .Whitespace (.Next "AfterValueColon"),
       on .IdentStart (.Next "InRelAggReduceBinder")]⟩),
   ("BinderTypeColon", ⟨false,
      [on (.Exact ':') (.Next "BinderTypeColon2")]⟩),
   ("BinderTypeColon2", ⟨false,
      [on .IdentStart (.Next "InBinderTypePath")]⟩),
   ("BlockStmt", ⟨false,
      [on .Whitespace (.Next "BlockStmt"),
       on (.Exact 'l') (.Next "LetL"),
       on .IdentStart (.Next "InSourceIdent"),
       on (.Exact '$') (.Next "AfterDollar")]⟩),
   ("BlockStmtClose", ⟨false,
      [on .Whitespace (.Next "BlockStmtClose"),
       on (.Exact 'l') (.Next "LetL"),
       on .IdentStart (.Next "InSourceIdent"),
       on (.Exact '$') (.Next "AfterDollar"),
       when (.Exact '}') (.StackTopIs "Brace") (.Pop "AfterValue"),
       when (.Exact '}') (.StackTopIs "BraceLambda") (.Pop "AfterValue")]⟩),
   ("DateFrac", ⟨false,
      [on .Digit (.Next "InDateFrac")]⟩),
   ("DateSep", ⟨false,
      [on .Digit (.Next "InDateLit")]⟩),
   ("DateTimeSep", ⟨false,
      [on .Digit (.Next "InDateTime")]⟩),
   ("ExpectBinder", ⟨false,
      [on .Whitespace (.Next "ExpectBinder"),
       on .IdentStart (.Next "InBinder")]⟩),
   ("ExpectBinderCallClose", ⟨false,
      [on .Whitespace (.Next "ExpectBinderCallClose"),
       when (.Exact ')') (.StackTopIs "Paren") (.Pop "AfterValue")]⟩),
   ("ExpectBinderMult", ⟨false,
      [on .Whitespace (.Next "ExpectBinderMult"),
       on .Digit (.Next "InBinderMult"),
       on (.Exact '*') (.Next "AfterBinderMultToken")]⟩),
   ("ExpectBinderValue", ⟨false,
      [on .Whitespace (.Next "ExpectBinderValue"),
       on .IdentStart (.Next "InBinderValueIdent"),
       on (.Exact '%') (.Next "SawPercent")]⟩),
   ("ExpectBraceBinder", ⟨false,
      [on .Whitespace (.Next "ExpectBraceBinder"),
       on .IdentStart (.Next "InIdent")]⟩),
   ("ExpectLambdaBody", ⟨false,
      [on (.Exact '|') .Dead,
       on .Any (.Goto "ExpectValueReq")]⟩),
   ("ExpectRelColSpec", ⟨false,
      [on .Whitespace (.Next "ExpectRelColSpec"),
       on .IdentStart (.Next "InRelColIdent"),
       on (.Exact QUOTE) (.Next "InRelColStrLit"),
       when (.Exact ']') (.StackTopIs "RelColBracket") (.Pop "AfterValue")]⟩),
   ("ExpectRelColSpecReq", ⟨false,
      [on .Whitespace (.Next "ExpectRelColSpecReq"),
       on .IdentStart (.Next "InRelColIdent"),
       on (.Exact QUOTE) (.Next "InRelColStrLit")]⟩),
   ("ExpectSource", ⟨false,
      [on .Whitespace (.Next "ExpectSource"),
       on .IdentStart (.Next "InSourceIdent")]⟩),
   ("ExpectValue", ⟨false,
      [on .Whitespace (.Next "ExpectValue"),
       on .IdentStart (.Next "InIdent"),
       on .Digit (.Next "InNumberInt"),
       on (.Exact '-') (.Next "SawNumSign"),
       on (.Exact '.') (.Next "NeedFracDigit"),
       on (.Exact QUOTE) (.Next "InStrLit"),
       on (.Exact '%') (.Next "SawPercent"),
       on (.Exact '$') (.Next "AfterDollar"),
       on (.Exact '~') (.Next "SawTilde"),
       on (.Exact '(') (.Push "Group" "ExpectValue"),
       on (.Exact '[') (.Push "Bracket" "ExpectValue"),
       on (.Exact '{') (.Push "BraceLambda" "ExpectBraceBinder"),
       on (.Exact '|') (.Next "ExpectValueReq"),
       on (.Exact '!') (.Next "ExpectValueReq"),
       when (.Exact '*') (.StackTopIs "Bracket") (.Next "InMultiplicity"),
       when (.Exact ')') (.StackTopIs "Paren") (.Pop "AfterValue"),
       when (.Exact ')') (.StackTopIs "Group") (.Pop "AfterValue"),
       when (.Exact ']') (.StackTopIs "Bracket") (.Pop "AfterValue"),
       when (.Exact '}') (.StackTopIs "Brace") (.Pop "AfterValue"),
       when (.Exact '}') (.StackTopIs "BraceLambda") (.Pop "AfterValue")]⟩),
   ("ExpectValueReq", ⟨false,
      [on .Whitespace (.Next "ExpectValueReq"),
       on .IdentStart (.Next "InIdent"),
       on .Digit (.Next "InNumberInt"),
       on (.Exact '-') (.Next "SawNumSign"),
       on (.Exact '.') (.Next "NeedFracDigit"),
       on (.Exact QUOTE) (.Next "InStrLit"),
       on (.Exact '%') (.Next "SawPercent"),
       on (.Exact '$') (.Next "AfterDollar"),
       on (.Exact '~') (.Next "SawTilde"),
       on (.Exact '(') (.Push "Group" "ExpectValue"),
       on (.Exact '[') (.Push "Bracket" "ExpectValue"),
       on (.Exact '{') (.Push "BraceLambda" "ExpectBraceBinder"),
       on (.Exact '|') (.Next "ExpectValueReq"),
       on (.Exact '!') (.Next "ExpectValueReq")]⟩),
   ("InArrowIdent", ⟨false,
      [on .IdentTail (.Next "InArrowIdent"),
       on .Any (.Goto "AfterArrowName")]⟩),
   ("InBinder", ⟨false,
      [on .IdentTail (.Next "InBinder"),
       on .Whitespace (.Next "AfterBinder"),
       on (.Exact '=') (.Next "ExpectBinderValue")]⟩),
   ("InBinderMult", ⟨false,
      [on .Digit (.Next "InBinderMult"),
       on .Whitespace (.Next "AfterBinderMultToken"),
       when (.Exact ']') (.StackTopIs "Bracket") (.Pop "AfterBinderMult")]⟩),
   ("InBinderType", ⟨false,
      [on .IdentTail (.Next "InBinderType"),
       on (.Exact ':') (.Next "BinderTypeColon"),
       on .Whitespace (.Next "AfterBinderType"),
       on (.Exact '[') (.Push "Bracket" "ExpectBinderMult"),
       on (.Exact '|') (.Next "ExpectLambdaBody")]⟩),
   ("InBinderTypePath", ⟨false,
      [on .IdentTail (.Next "InBinderTypePath"),
       on (.Exact ':') (.Next "BinderTypeColon"),
       on .Whitespace (.Next "AfterBinderTypePath"),
       on (.Exact '[') (.Push "Bracket" "ExpectBinderMult")]⟩),
   ("InBinderValueIdent", ⟨false,
      [on .IdentTail (.Next "InBinderValueIdent"),
       on (.Exact '.') (.Next "AfterDot"),
       on (.Exact '-') (.Next "SourceDash"),
       on (.Exact ':') (.Next "SourceColon"),
       on (.Exact '(') (.Push "Paren" "ExpectBinderCallClose")]⟩),
   ("InDateFrac", ⟨false,
      [on .Digit (.Next "InDateFrac"),
       on .Any (.Goto "AfterValue")]⟩),
   ("InDateLit", ⟨false,
      [on .Digit (.Next "InDateLit"),
       on (.OneOf (lit "-T")) (.Next "DateSep"),
       on (.Exact ':') (.Next "DateTimeSep"),
       on .Any (.Goto "AfterValue")]⟩),
   ("InDateTime", ⟨false,
      [on .Digit (.Next "InDateTime"),
       on (.OneOf (lit "-:")) (.Next "DateTimeSep"),
       on (.Exact '.') (.Next "DateFrac"),
       on .Any (.Goto "AfterValue")]⟩),
   ("InExp", ⟨false,
      [on .Digit (.Next "InExp"),
       on .Any (.Goto "AfterValue")]⟩),
   ("InIdent", ⟨false,
      [on .IdentTail (.Next "InIdent"),
       on .Any (.Goto "AfterName")]⟩),
   ("InMemberIdent", ⟨false,
      [on .IdentTail (.Next "InMemberIdent"),
       on .Any (.Goto "AfterMemberName")]⟩),
   ("InMilestoneLit", ⟨false,
      [on .Any (.Goto "AfterValue")]⟩),
   ("InMultiplicity", ⟨false,
      [when (.Exact ']') (.StackTopIs "Bracket") (.Pop "AfterValue")]⟩),
   ("InNumberFrac", ⟨false,
      [on .Digit (.Next "InNumberFrac"),
       on (.OneOf (lit "eE")) (.Next "SawExp"),
       on .Any (.Goto "AfterValue")]⟩),
   ("InNumberInt", ⟨false,
      [on .Digit (.Next "InNumberInt"),
       on (.Exact '.') (.Next "NeedFracDigit"),
       on .Any (.Goto "AfterValue")]⟩),
   ("InRelAggReduceBinder", ⟨false,
      [on .IdentTail (.Next "InRelAggReduceBinder"),
       on .Any (.Goto "AfterRelAggReduceBinder")]⟩),
   ("InRelColIdent", ⟨false,
      [on .IdentTail (.Next "InRelColIdent"),
       on .Any (.Goto "AfterRelColName")]⟩),
   ("InRelColLambdaBinder", ⟨false,
      [on .IdentTail (.Next "InRelColLambdaBinder"),
       on .Any (.Goto "AfterRelColLambdaBinder")]⟩),
   ("InRelColStrLit", ⟨false,
      [on (.Exact QUOTE) (.Next "InRelColStrLitPending"),
       on .Any (.Next "InRelColStrLit")]⟩),
   ("InRelColStrLitPending", ⟨false,
      [on (.Exact QUOTE) (.Next "InRelColStrLit"),
       on .Any (.Goto "AfterRelColName")]⟩),
   ("InSourceIdent", ⟨false,
      [on .IdentTail (.Next "InSourceIdent"),
       on (.Exact '.') (.Next "AfterDot"),
       on (.Exact '-') (.Next "SourceDash"),
       on (.Exact ':') (.Next "SourceColon")]⟩),
   ("InStrLit", ⟨false,
      [on (.Exact QUOTE) (.Next "InStrLitPending"),
       on .Any (.Next "InStrLit")]⟩),
   ("InStrLitPending", ⟨false,
      [on (.Exact QUOTE) (.Next "InStrLit"),
       on .Any (.Goto "AfterStrLit")]⟩),
   ("LetL", ⟨false,
      [on (.Exact 'e') (.Next "LetLe"),
       on .Any (.Goto "InSourceIdent")]⟩),
   ("LetLe", ⟨false,
      [on (.Exact 't') (.Next "LetLet"),
       on .Any (.Goto "InSourceIdent")]⟩),
   ("LetLet", ⟨false,
      [on .Whitespace (.Next "ExpectBinder"),
       on .Any (.Goto "InSourceIdent")]⟩),
   ("MilestoneL", ⟨false,
      [on (.Exact 'a') (.Next "MilestoneLa")]⟩),
   ("MilestoneLa", ⟨false,
      [on (.Exact 't') (.Next "MilestoneLat")]⟩),
   ("MilestoneLat", ⟨false,
      [on (.Exact 'e') (.Next "MilestoneLate")]⟩),
   ("MilestoneLate", ⟨false,
      [on (.Exact 's') (.Next "MilestoneLates")]⟩),
   ("MilestoneLates", ⟨false,
      [on (.Exact 't') (.Next "InMilestoneLit")]⟩),
   ("NeedExpDigit", ⟨false,
      [on .Digit (.Next "InExp")]⟩),
   ("NeedFracDigit", ⟨false,
      [on .Digit (.Next "InNumberFrac")]⟩),
   ("SawAmp", ⟨false,
      [on (.Exact '&') (.Next "ExpectValueReq")]⟩),
   ("SawBang", ⟨false,
      [on (.Exact '=') (.Next "ExpectValueReq")]⟩),
   ("SawDash", ⟨false,
      [on (.Exact '>') (.Next "AfterArrow"),
       on .Any (.Goto "ExpectValueReq")]⟩),
   ("SawEq", ⟨false,
      [on (.Exact '=') (.Next "ExpectValueReq")]⟩),
   ("SawExp", ⟨false,
      [on (.OneOf (lit "+-")) (.Next "NeedExpDigit"),
       on .Digit (.Next "InExp")]⟩),
   ("SawGt", ⟨false,
      [on (.Exact '=') (.Next "ExpectValueReq"),
       on .Any (.Goto "ExpectValueReq")]⟩),
   ("SawLt", ⟨false,
      [on (.Exact '=') (.Next "ExpectValueReq"),
       on .Any (.Goto "ExpectValueReq")]⟩),
   ("SawNumSign", ⟨false,
      [on .Digit (.Next "InNumberInt"),
       on (.Exact '.') (.Next "NeedFracDigit")]⟩),
   ("SawPercent", ⟨false,
      [on .Digit (.Next "InDateLit"),
       on (.Exact 'l') (.Next "MilestoneL")]⟩),
   ("SawPipe", ⟨false,
      [on (.Exact '|') (.Next "ExpectValueReq"),
       when .Any (.StackTopIsNot "Brace") (.Goto "ExpectValueReq")]⟩),
   ("SawTilde", ⟨false,
      [on (.Exact '[') (.Push "RelColBracket" "ExpectRelColSpec"),
       on (.Exact QUOTE) (.Next "InRelColStrLit"),
       on .IdentStart (.Next "InRelColIdent")]⟩),
   ("SawValuePipe", ⟨false,
      [on (.Exact '|') (.Next "ExpectValueReq")]⟩),
   ("SourceColon", ⟨false,
      [on (.Exact ':') (.Next "SourceColon2")]⟩),
   ("SourceColon2", ⟨false,
      [on .IdentStart (.Next "InSourceIdent")]⟩),
   ("SourceDash", ⟨false,
      [on (.Exact '>') (.Next "AfterArrow")]⟩),
   ("Start", ⟨false,
      [on .Whitespace (.Next "Start"),
       on (.Exact '|') (.Next "ExpectSource"),
       on (.Exact '{') (.Push "Brace" "AfterBraceOpen")]⟩)]

def EMITTED_SUBSET_SPEC : GrammarSpec := .V1
  { start := "Start"
    boundary_byte := ' '
    frames := ["Paren", "Group", "Bracket", "Brace", "BraceLambda", "RelColBracket"]
    states := EMITTED_STATES
    sorted := by decide +kernel }

end purecard.emitted_subset
