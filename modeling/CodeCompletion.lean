import CodeCompletion.Network.Build
import CodeCompletion.Proofs.Completeness
import CodeCompletion.Proofs.Consent
import CodeCompletion.Proofs.Continuation
import CodeCompletion.Proofs.Preloading
import CodeCompletion.Proofs.Rearrangement
import CodeCompletion.Proofs.SilentRun
import CodeCompletion.Proofs.Soundness
import CodeCompletion.Proofs.Tally
import CodeCompletion.Proofs.Termination
import CodeCompletion.Request
import CodeCompletion.Proofs.Validation
import CodeCompletion.Proofs.Discipline
import CodeCompletion.Proofs.NextToken
import CodeCompletion.Proofs.Boundaries
import CodeCompletion.Proofs.SetOrder
import CodeCompletion.Proofs.Window
import CodeCompletion.Proofs.Storage
import CodeCompletion.Proofs.Grammar
import CodeCompletion.Proofs.ActiveRules
import CodeCompletion.Proofs.Allowance
import CodeCompletion.Proofs.Ignoring
import CodeCompletion.Proofs.Preference
import CodeCompletion.Proofs.Delay
import CodeCompletion.Proofs.DepthFirst
import CodeCompletion.Proofs.NullableSearch
import CodeCompletion.Proofs.Refusal
import CodeCompletion.Proofs.SetContents
import CodeCompletion.Proofs.Facts
import CodeCompletion.Proofs.PathStarts
import CodeCompletion.Proofs.StackNumbers
