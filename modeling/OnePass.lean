import OnePass.Main
import OnePass.Proofs.Emission.Closing
import OnePass.Proofs.Syntax.Branches
import OnePass.Proofs.Syntax.Routing
import OnePass.Proofs.Emission.Calm
import OnePass.Proofs.Emission.Unfailing
import OnePass.Proofs.Derivation.Strictness
import OnePass.Proofs.Derivation.Translation
import OnePass.Proofs.Derivation.Ownership
import OnePass.Proofs.Syntax.Protocol
import OnePass.Proofs.Derivation.Accounting
import OnePass.Proofs.Syntax.Execution
import OnePass.Proofs.Derivation.Recovery
import OnePass.Proofs.Derivation.Overloads
import OnePass.Proofs.Syntax.Occurrences
import OnePass.Proofs.Grammar.Exactness
import OnePass.Proofs.Lexical.Segments
import OnePass.Proofs.Derivation.Termination
import OnePass.Proofs.Syntax.Registration
import OnePass.Proofs.Emission.WriteOnce
import OnePass.Proofs.Syntax.Dispatching
import OnePass.Proofs.Syntax.Reports
import OnePass.Proofs.Target.Copies
import OnePass.Proofs.Names.Requests
import OnePass.Proofs.Syntax.Bound
import OnePass.Proofs.Syntax.Lists
import OnePass.Proofs.Emission.Changes
import OnePass.Proofs.Emission.Histories
import OnePass.Proofs.Derivation.Lines
import OnePass.Proofs.Derivation.Reserved
import OnePass.Proofs.Emission.Zones
import OnePass.Proofs.Grammar.Unambiguity
import OnePass.Proofs.Target.Operations
import OnePass.Proofs.Derivation.Preamble
import OnePass.Proofs.Lexical.Rescanning
import OnePass.Proofs.Derivation.Transparency
import OnePass.Proofs.Derivation.Capacity
import OnePass.Proofs.Text.Rows
import OnePass.Proofs.Text.Drawing
import OnePass.Proofs.Names.LoopFrames
import OnePass.Proofs.Syntax.Returning
