import OnePass.Compilation

/-!
# Reports

A compilation as text files, one for each kind of thing it found.

* `groupedByLine`: entries of one line in one row, behind the number of the line.
* `Compilation.reports`: every report with its file name.
-/

namespace OnePass

/-- Lines of text, each ended by a newline. -/
def unlines (lines : List String) : String := String.join (lines.map (· ++ "\n"))

/-- The entries of one line of the source: its number, and the entries with spaces between. -/
def lineRow (entries : List (Nat × String)) : String :=
  s!"{(entries.head?.map (·.1)).getD 0}.\t" ++ " ".intercalate (entries.map (·.2))

/-- **Entries grouped by line.** Neighbours that belong to one line share a row. -/
def groupedByLine (entries : List (Nat × String)) : String :=
  unlines ((entries.splitBy fun a b => a.1 == b.1).map lineRow)

/-- A line for every item, or a remark if there is none. -/
def listOr (remark : String) (lines : List String) : String :=
  if lines.isEmpty then remark else unlines lines

namespace Compilation

/-- What is said instead of code. -/
def noCode : String := "The code has not been generated."

/-- The instructions, each behind the number of its slot. -/
def numberedCode (code : List String) : List String :=
  code.zipIdx.map fun (instruction, slot) => s!"{slot}\t{instruction}"

variable (c : Compilation)

def tokensReport : String := groupedByLine (c.tokens.map fun t => (t.line, t.display))

def lexicalReport : String :=
  if c.lexicalErrors.isEmpty then "There is no lexical error."
  else groupedByLine (c.lexicalErrors.map fun e => (e.line, e.display))

def syntaxReport : String :=
  listOr "There is no syntax error." (c.syntaxErrors.map SyntaxError.display)

def semanticReport : String :=
  listOr "The input program is semantically correct."
    (c.semanticErrors.map SemanticError.display)

/-- The names of the rows, numbered from one. -/
def symbolReport : String :=
  unlines (c.symbols.zipIdx.map fun (row, i) => s!"{i + 1}.\t{row.name}")

def codeReport : String :=
  match c.code with
  | some code => unlines (numberedCode code)
  | none => noCode

/-- **Every report with its file name,** in the order they are written. -/
def reports : List (String × String) :=
  [("tokens.txt", c.tokensReport),
    ("lexical_errors.txt", c.lexicalReport),
    ("syntax_errors.txt", c.syntaxReport),
    ("parse_tree.txt", c.parseTree),
    ("symbol_table.txt", c.symbolReport),
    ("semantic_errors.txt", c.semanticReport),
    ("output.txt", c.codeReport)]

end Compilation

end OnePass
