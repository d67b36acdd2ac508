import CodeCompletion.Ident
import Std.Data.ExtTreeSet

/-!
# Completion options

What a completion request may ask for beside the place of the caret.
-/

set_option autoImplicit false

namespace CodeCompletion

/-- Options of a completion request. -/
structure Options where
  /-- Terminals that are never offered. -/
  ignored : Std.ExtTreeSet TerminalId := ∅
  /-- Rules that are offered as such instead of the terminals in them. -/
  preferred : Std.ExtTreeSet RuleId := ∅
  /-- Terminals that may be stepped over where they already follow the caret. -/
  preloaded : Std.ExtTreeSet TerminalId := ∅
  /-- The most calls that may be open at a time. -/
  depthLimit : Nat := 4096
deriving DecidableEq

namespace Options

/-- Never offer these terminals. -/
def ignoring (options : Options) (terminals : List TerminalId) : Options :=
  { options with ignored := options.ignored.insertMany terminals }

/-- Offer these rules as such. -/
def preferring (options : Options) (rules : List RuleId) : Options :=
  { options with preferred := options.preferred.insertMany rules }

/-- Allow these terminals to be stepped over after the caret. -/
def preloading (options : Options) (terminals : List TerminalId) : Options :=
  { options with preloaded := options.preloaded.insertMany terminals }

/-- Limit the number of open calls. The limit is at least one, so that the first rule is
always explored. -/
def limitingDepth (options : Options) (limit : Nat) : Options :=
  { options with depthLimit := max limit 1 }

end Options

end CodeCompletion
