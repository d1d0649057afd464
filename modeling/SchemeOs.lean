import SchemeOs.Allocator.HeapPages
import SchemeOs.Allocator.MallocRequests
import SchemeOs.Allocator.MallocSafety
import SchemeOs.Allocator.MallocTermination
import SchemeOs.Allocator.MallocTiling
import SchemeOs.Collector.Barrier
import SchemeOs.Collector.FreeRegions
import SchemeOs.Collector.Generations
import SchemeOs.Collector.SlotPages
import SchemeOs.Collector.Slots
import SchemeOs.Compiler.Accepted
import SchemeOs.Compiler.Activations
import SchemeOs.Compiler.Allocation
import SchemeOs.Compiler.Constants
import SchemeOs.Compiler.Identifiers
import SchemeOs.Compiler.Lexical
import SchemeOs.Compiler.Operands
import SchemeOs.Compiler.Parsed
import SchemeOs.Compiler.Parser
import SchemeOs.Compiler.Resolution
import SchemeOs.Compiler.Scanner
import SchemeOs.Compiler.Scopes
import SchemeOs.Compiler.StackTop
import SchemeOs.Compiler.Straight
import SchemeOs.Compiler.Supported
import SchemeOs.Compiler.Translated
import SchemeOs.Compiler.Values
import SchemeOs.Console.Print
import SchemeOs.Interpreter.Agreement
import SchemeOs.Interpreter.Append
import SchemeOs.Interpreter.AppendLoop
import SchemeOs.Interpreter.ArgumentVectors
import SchemeOs.Interpreter.Arity
import SchemeOs.Interpreter.Assignment
import SchemeOs.Interpreter.Builtins
import SchemeOs.Interpreter.Counters
import SchemeOs.Interpreter.Dispatch
import SchemeOs.Interpreter.Division
import SchemeOs.Interpreter.Env2
import SchemeOs.Interpreter.Env2Ops
import SchemeOs.Interpreter.Env2Runs
import SchemeOs.Interpreter.EnvironmentRuns
import SchemeOs.Interpreter.EvalCorrect
import SchemeOs.Interpreter.Exhaustion
import SchemeOs.Interpreter.FormSpec
import SchemeOs.Interpreter.Forms
import SchemeOs.Interpreter.HashTables
import SchemeOs.Interpreter.Keywords
import SchemeOs.Interpreter.ListLength
import SchemeOs.Interpreter.Rationals
import SchemeOs.Interpreter.StringEquality
import SchemeOs.Interpreter.Symbols
import SchemeOs.Interpreter.Transparency
import SchemeOs.Machinery.Lexing
import SchemeOs.Machinery.ParserTables
import SchemeOs.Machinery.Service
import SchemeOs.Machinery.ShiftReduce
import SchemeOs.Machinery.Traced
import SchemeOs.Memory.Answers
import SchemeOs.Memory.Frames
import SchemeOs.Memory.Installed
import SchemeOs.Memory.Refusals
import SchemeOs.Memory.Regions
import SchemeOs.Memory.Tenants
import SchemeOs.Reader.Display
import SchemeOs.Reader.Formats
import SchemeOs.Reader.Independence
import SchemeOs.Reader.Keyboard
import SchemeOs.Reader.Numerals
import SchemeOs.Reader.Overrun
import SchemeOs.Reader.Ports
import SchemeOs.Reader.Prints
import SchemeOs.Reader.RoundTrip
import SchemeOs.Reader.Successive
import SchemeOs.Reader.VectorFill
import SchemeOs.Reader.WellFormed
import SchemeOs.Reader.Words
import SchemeOs.Strings.Calls
import SchemeOs.Strings.Compare
import SchemeOs.Strings.Releases
