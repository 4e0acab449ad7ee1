import LocLang.Report.Console
import LocLang.Text.Template

namespace LocLang

/-- What breaks off a phase. -/
inductive Raised where
  /-- An error at a place. Its message is a template. -/
  | located (span : Option Span) (template : String)
  | diagnostic (d : Diagnostic)
  /-- An error about the file as a whole. -/
  | failure (text : String)
deriving DecidableEq, Repr

/-- Reports what broke off a phase. -/
def Report.raised (subject : Subject) : Raised → Report Unit
  | .located span template => error subject span (Text.Template.fill template)
  | .diagnostic d => diagnostic subject d
  | .failure text => failure subject.shown text

end LocLang
