import Smalltalk.Value
import Smalltalk.Memory.Kind
import Smalltalk.Fault
import Smalltalk.Memory.Arena
import Smalltalk.Memory.Basic
import Smalltalk.Memory.Access
import Smalltalk.Memory.Collection
import Smalltalk.Memory.Allocation
import Smalltalk.Instruction
import Smalltalk.Primitive
import Smalltalk.Text.Blank
import Smalltalk.Text.Printable
import Smalltalk.Text.Quoted
import Smalltalk.Text.Utf8
import Smalltalk.Double.Basic
import Smalltalk.Double.Shortest
import Smalltalk.Source.Token
import Smalltalk.Source.Lexer
import Smalltalk.Source.Tree
import Smalltalk.Source.Error
import Smalltalk.Source.Parser
import Smalltalk.ClassFile.Basic
import Smalltalk.Layout
import Smalltalk.Text.Align
import Smalltalk.Machine.Registers
import Smalltalk.Machine.Log
import Smalltalk.Machine.Basic
import Smalltalk.Method.Names
import Smalltalk.Method.Draft
import Smalltalk.Machine.Symbol
import Smalltalk.Machine.Dictionary
import Smalltalk.Machine.Context
import Smalltalk.Method.Build
import Smalltalk.Machine.Primitives
import Smalltalk.Machine.Step
import Smalltalk.Kernel
import Smalltalk.ClassFile.Load
import Smalltalk.ClassFile.Build
import Smalltalk.Image.Format
import Smalltalk.Image.Verify
import Smalltalk.Image.Basic
import Smalltalk.Digest
import Smalltalk.Machine.Inspect
import Smalltalk.Machine.Census
import Smalltalk.Machine.Host
import Smalltalk.Memory.Handles
import Smalltalk.CommandLine.Options
import Smalltalk.CommandLine.Path
import Smalltalk.CommandLine.Files
import Smalltalk.CommandLine.Basic
import Smalltalk.Main
import Smalltalk.Proofs.Arena
import Smalltalk.Proofs.Tiling
import Smalltalk.Proofs.Heap
import Smalltalk.Proofs.Collection
import Smalltalk.Proofs.Relocation
import Smalltalk.Proofs.Correspondence
import Smalltalk.Proofs.Identity
import Smalltalk.Proofs.Simulation.Basic
import Smalltalk.Proofs.Simulation.Access
import Smalltalk.Proofs.Simulation.Effects
import Smalltalk.Proofs.Simulation.Allocation
import Smalltalk.Proofs.Walk
import Smalltalk.Proofs.Simulation.Symbols
import Smalltalk.Proofs.Simulation.Contexts
import Smalltalk.Proofs.Compilation.Faults
import Smalltalk.Proofs.Simulation.Methods
import Smalltalk.Proofs.Simulation.Primitives
import Smalltalk.Proofs.Simulation.Classes
import Smalltalk.Proofs.Simulation.Steps
import Smalltalk.Proofs.Safety
import Smalltalk.Proofs.Transparency
import Smalltalk.Proofs.Compilation.Evaluation
import Smalltalk.Proofs.Compilation.Frames
import Smalltalk.Proofs.Compilation.Emission
import Smalltalk.Proofs.Compilation.Correctness
import Smalltalk.Proofs.Compilation.Depth
import Smalltalk.Proofs.Compilation.StackSize
import Smalltalk.Proofs.Arrangement
import Smalltalk.Proofs.Image.Verification
import Smalltalk.Proofs.Image.Reading
import Smalltalk.Proofs.Image.RoundTrip
import Smalltalk.Proofs.Image.Exactness
import Smalltalk.Proofs.Image.Saving
import Smalltalk.Proofs.Compilation.Operands
import Smalltalk.Proofs.Undisturbed
import Smalltalk.Proofs.Grammar.Reading
import Smalltalk.Proofs.Allocation
import Smalltalk.Proofs.MethodObjects
import Smalltalk.Proofs.SymbolTable
import Smalltalk.Proofs.Resuming
import Smalltalk.Proofs.Compilation.Stepping
import Smalltalk.Proofs.Dictionaries
import Smalltalk.Proofs.Inheritance
import Smalltalk.Proofs.ClassFiles
import Smalltalk.Proofs.Derivation
import Smalltalk.Proofs.Accounting
import Smalltalk.Proofs.Integers
import Smalltalk.Proofs.IdentityHashes
