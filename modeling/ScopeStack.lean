import ScopeStack.Main
import ScopeStack.Proofs.Crew
import ScopeStack.Proofs.Forgetting
import ScopeStack.Proofs.OpenBlocks
import ScopeStack.Text.Position
import ScopeStack.Proofs.Nesting
import ScopeStack.Proofs.Reclaiming
import ScopeStack.Proofs.FallThrough
import ScopeStack.Proofs.Scripts
import ScopeStack.Proofs.Compilation
import ScopeStack.Proofs.Edits
import ScopeStack.Proofs.Footprint
import ScopeStack.Proofs.Issued
import ScopeStack.Proofs.Ensemble
import ScopeStack.Proofs.Faithful
import ScopeStack.Proofs.Isolation
import ScopeStack.Proofs.Agreement
import ScopeStack.Proofs.Trials
import ScopeStack.Proofs.Lexemes
import ScopeStack.Proofs.Writing
import ScopeStack.Proofs.Operations
import ScopeStack.Proofs.Definitions
import ScopeStack.Proofs.Balance
import ScopeStack.Proofs.Lookups
import ScopeStack.Proofs.Integers
import ScopeStack.Proofs.SortOrder
import ScopeStack.Proofs.Sorting
import ScopeStack.Proofs.PropertyList
import ScopeStack.Proofs.Literals
import ScopeStack.Proofs.Counting
import ScopeStack.Proofs.Branches
import ScopeStack.Proofs.Searches
import ScopeStack.Proofs.Positions
import ScopeStack.Proofs.Transfers
import ScopeStack.Proofs.Buffering
