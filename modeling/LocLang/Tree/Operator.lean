namespace LocLang

inductive BinaryOp where
  | add | sub | mul | div
  | eq | ne | lt | gt | le | ge
deriving DecidableEq, Repr, Inhabited

def BinaryOp.symbol : BinaryOp → String
  | add => "+" | sub => "-" | mul => "*" | div => "/"
  | eq => "==" | ne => "!=" | lt => "<" | gt => ">" | le => "<=" | ge => ">="

/-- Whether the operator yields a truth value. -/
def BinaryOp.isComparison : BinaryOp → Bool
  | add | sub | mul | div => false
  | eq | ne | lt | gt | le | ge => true

end LocLang
