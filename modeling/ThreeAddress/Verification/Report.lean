import ThreeAddress.Verification.Diagnostic

/-! Reports: findings in order, up to a limit. A limit of zero is no limit. -/

namespace ThreeAddress

/-- The findings of a verification. -/
structure Report where
  diagnostics : List Diagnostic := []
deriving DecidableEq, Repr

namespace Report

def hasErrors (report : Report) : Bool :=
  report.diagnostics.any Diagnostic.isError

def isOk (report : Report) : Bool :=
  !report.hasErrors

def errors (report : Report) : List Diagnostic :=
  report.diagnostics.filter Diagnostic.isError

def warnings (report : Report) : List Diagnostic :=
  report.diagnostics.filter fun diagnostic => !diagnostic.isError

def hasCode (report : Report) (code : DiagnosticCode) : Bool :=
  report.diagnostics.any fun diagnostic => diagnostic.code == code

/-- As many findings as the limit allows have been collected. -/
def isFull (report : Report) (limit : Nat) : Bool :=
  limit != 0 && limit ≤ report.diagnostics.length

def push (limit : Nat) (report : Report) (diagnostic : Diagnostic) : Report :=
  if report.isFull limit then report
  else { diagnostics := report.diagnostics ++ [diagnostic] }

/-- Adds findings until the report is full. -/
def extend (limit : Nat) (report : Report) (diagnostics : List Diagnostic) : Report :=
  diagnostics.foldl (push limit) report

/-- Adds reports one after another, and stops at the one that fills this one. -/
def merge (limit : Nat) (report : Report) : List Report → Report
  | [] => report
  | next :: rest =>
    let report := report.extend limit next.diagnostics
    if report.isFull limit then report else report.merge limit rest

/-- The findings one after another, or a word of success when there are none. -/
def text (report : Report) : String :=
  if report.diagnostics.isEmpty then "verification succeeded"
  else String.join (report.diagnostics.map Diagnostic.text)

def toJson (report : Report) : Json :=
  .ofMembers [("diagnostics", .array (report.diagnostics.map Diagnostic.toJson))]

end Report

end ThreeAddress
