import DeployScript.CommandLine.Grammar

/-!
# Help

What the program says of itself and of its commands: what a command does, how it is used, and a
column of names beside a column of explanations.

* `programHelp` is about the program, `commandHelp` about one command.
-/

namespace DeployScript.CommandLine

/-- A name with its explanation. -/
abbrev Row := String × String

/-- The names in a column, two blanks from the explanations. -/
def table (rows : List Row) : List String :=
  let width := rows.foldl (fun width row => max width row.1.length) 0
  rows.map fun row =>
    "  " ++ row.1 ++ String.ofList (List.replicate (width - row.1.length + 2) ' ') ++ row.2

/-- An option as it is typed. Options without a short form stand below the long forms of the
others. -/
def Switch.usage (s : Switch) : String :=
  let short := match s.short with
    | some c => "-" ++ String.singleton c ++ ", "
    | none => "    "
  let value := match s.effect with
    | .value name _ => " <" ++ name ++ ">"
    | _ => ""
  short ++ "--" ++ s.long ++ value

/-- A table under a heading, with an empty line before it. There is none without rows. -/
def titled (title : String) (rows : List Row) : List String :=
  if rows = [] then [] else "" :: (title ++ ":") :: table rows

/-- How a command is typed. -/
def usageLine (words : List String) (c : CommandForm) (operand : String) : String :=
  let options := if c.switches = [] then [] else ["[OPTIONS]"]
  let operands := if operand = "" then [] else [operand]
  "Usage: " ++ " ".intercalate (words ++ options ++ operands)

/-- Lines as a text. -/
def unlines (lines : List String) : String := String.join (lines.map (· ++ "\n"))

/-- The options of a command in a table. -/
def optionRows (c : CommandForm) : List Row := c.switches.map fun s => (s.usage, s.about)

/-- The help on the program. -/
def programHelp : String :=
  unlines <| [programForm.about, "", usageLine [programForm.name] programForm "<COMMAND>"] ++
    titled "Commands" (commandForms.map fun c => (c.name, c.about)) ++
    titled "Options" (optionRows programForm)

/-- The operands of a command as they are typed, with their explanation. Only `help` takes any
number of them. -/
def operandRow? (c : CommandForm) : Option Row :=
  c.operand.map fun name =>
    if c.name = helpForm.name then ("[" ++ name ++ "]...", "Print help for the subcommand(s)")
    else ("<" ++ name ++ ">", "")

/-- The help on a command. -/
def commandHelp (c : CommandForm) : String :=
  let operands := (operandRow? c).toList
  unlines <| [c.about, "",
    usageLine [programForm.name, c.name] c (String.join (operands.map (·.1)))] ++
    titled "Arguments" operands ++ titled "Options" (optionRows c)

end DeployScript.CommandLine
