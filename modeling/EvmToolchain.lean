import EvmToolchain.Analysis.AnyState
import EvmToolchain.Analysis.FixedPoint
import EvmToolchain.Compiler.Session
import EvmToolchain.Machine.Run
import EvmToolchain.Settings.File
import EvmToolchain.Proofs.Code.Walk
import EvmToolchain.Proofs.Code.Blocks
import EvmToolchain.Proofs.Analysis.Order
import EvmToolchain.Proofs.Analysis.Effect
import EvmToolchain.Proofs.Analysis.Engine
import EvmToolchain.Proofs.Analysis.Termination
import EvmToolchain.Proofs.Analysis.Least
import EvmToolchain.Proofs.Machine.StackEffect
import EvmToolchain.Proofs.Analysis.Soundness
import EvmToolchain.Proofs.Code.Assembled
import EvmToolchain.Proofs.Compiler.Emits
import EvmToolchain.Proofs.Analysis.Resolved
import EvmToolchain.Proofs.Compiler.Resolved
import EvmToolchain.Proofs.Lang.Semantics
import EvmToolchain.Proofs.Machine.Words
import EvmToolchain.Proofs.Machine.Configs
import EvmToolchain.Proofs.Machine.Leads
import EvmToolchain.Proofs.Compiler.Heights
import EvmToolchain.Proofs.Compiler.Expression
import EvmToolchain.Proofs.Compiler.LabelScope
import EvmToolchain.Proofs.Compiler.Statement
import EvmToolchain.Proofs.Compiler.Correctness
import EvmToolchain.Proofs.Analysis.Passes
import EvmToolchain.Proofs.Code.Linking
import EvmToolchain.Proofs.Code.Alignment
import EvmToolchain.Proofs.Machine.Lockstep
import EvmToolchain.Proofs.Analysis.DeadBlocks
import EvmToolchain.Proofs.Analysis.Reassembly
import EvmToolchain.Proofs.Machine.Safety
import EvmToolchain.Proofs.Analysis.Rest
import EvmToolchain.Proofs.Code.Defects
import EvmToolchain.Proofs.Compiler.Reserved
import EvmToolchain.Proofs.Compiler.LabelUse
import EvmToolchain.Proofs.Compiler.AssemblyErrors
import EvmToolchain.Proofs.Compiler.Hygiene
import EvmToolchain.Proofs.Analysis.Interrupted
import EvmToolchain.Proofs.Code.Scan
import EvmToolchain.Proofs.Machine.Accesses
import EvmToolchain.Proofs.Machine.Growth
import EvmToolchain.Proofs.Compiler.Placed
import EvmToolchain.Proofs.Analysis.Flattening
import EvmToolchain.Proofs.Code.NormalForm
import EvmToolchain.Proofs.Analysis.Reencoding
import EvmToolchain.Proofs.Analysis.Description
import EvmToolchain.Proofs.Analysis.Staged
import EvmToolchain.Proofs.Analysis.Entered
import EvmToolchain.Proofs.Machine.Accounting
import EvmToolchain.Proofs.Analysis.Levels
import EvmToolchain.Proofs.Compiler.Levels
import EvmToolchain.Proofs.Code.LaidOut
import EvmToolchain.Proofs.Machine.Contents
import EvmToolchain.Proofs.Compiler.Reports
import EvmToolchain.Proofs.Code.Renaming
import EvmToolchain.Proofs.Compiler.Renumbering
import EvmToolchain.Proofs.Compiler.Literals
import EvmToolchain.Proofs.Analysis.Queries
import EvmToolchain.Proofs.Machine.Padding
import EvmToolchain.Proofs.Lang.Slots
import EvmToolchain.Proofs.Compiler.HandBack
import EvmToolchain.Proofs.Compiler.Slots
import EvmToolchain.Proofs.Compiler.Conditions
