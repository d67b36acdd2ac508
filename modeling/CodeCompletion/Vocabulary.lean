import CodeCompletion.Ident

/-!
# Vocabulary

The names of a grammar's terminals and rules. Names serve display and lookup only; two
symbols may share a name, and then the name finds the one registered first.

## Main definitions

* `Vocabulary.terminalName?`, `Vocabulary.ruleName?`: the name of a symbol
* `Vocabulary.terminalNamed?`, `Vocabulary.ruleNamed?`: the symbol of a name
* `Vocabulary.terminalIds`: all named terminals in ascending order
-/

set_option autoImplicit false

namespace CodeCompletion

/-- Names of terminals and rules, by position. -/
structure Vocabulary where
  terminals : Array String := #[]
  rules : Array String := #[]
deriving DecidableEq

namespace Vocabulary

/-- Register a terminal under a name. -/
def addTerminal (vocabulary : Vocabulary) (name : String) : TerminalId × Vocabulary :=
  (.ofIndex vocabulary.terminals.size,
    { vocabulary with terminals := vocabulary.terminals.push name })

/-- Register a rule under a name. -/
def addRule (vocabulary : Vocabulary) (name : String) : RuleId × Vocabulary :=
  (.ofIndex vocabulary.rules.size, { vocabulary with rules := vocabulary.rules.push name })

/-- The name of a terminal. The wildcard is shown as `<any>`. -/
def terminalName? (vocabulary : Vocabulary) (terminal : TerminalId) : Option String :=
  if terminal.isWildcard then some "<any>" else vocabulary.terminals[terminal.index]?

/-- The name of a rule. -/
def ruleName? (vocabulary : Vocabulary) (rule : RuleId) : Option String :=
  vocabulary.rules[rule.index]?

/-- The terminal registered first under a name. -/
def terminalNamed? (vocabulary : Vocabulary) (name : String) : Option TerminalId :=
  (vocabulary.terminals.findIdx? (· == name)).map TerminalId.ofIndex

/-- The rule registered first under a name. -/
def ruleNamed? (vocabulary : Vocabulary) (name : String) : Option RuleId :=
  (vocabulary.rules.findIdx? (· == name)).map RuleId.ofIndex

/-- All registered terminals. -/
def terminalIds (vocabulary : Vocabulary) : List TerminalId :=
  (List.range vocabulary.terminals.size).map TerminalId.ofIndex

/-- The text that stands for a terminal in a listing: its name, or else its number. -/
def terminalText (vocabulary : Vocabulary) (terminal : TerminalId) : String :=
  (vocabulary.terminalName? terminal).getD (toString terminal)

/-- The text that stands for a rule in a listing: its name, or else its number. -/
def ruleText (vocabulary : Vocabulary) (rule : RuleId) : String :=
  (vocabulary.ruleName? rule).getD (toString rule)

end Vocabulary

end CodeCompletion
