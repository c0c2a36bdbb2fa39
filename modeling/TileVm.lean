import TileVm.Lib.Loop
import TileVm.Vm.Exec
import TileVm.Vm.Step
import TileVm.Vm.Chain
import TileVm.Vm.Safety
import TileVm.Vm.Calls
import TileVm.Vm.Run
import TileVm.Tasm.Lexer
import TileVm.Tasm.LexerSpec
import TileVm.Tasm.LexerProgress
import TileVm.Tasm.Ast
import TileVm.Tasm.Parser
import TileVm.Tasm.ParserSpec
import TileVm.Tasm.ParserProgress
import TileVm.Lib.Fold
import TileVm.Tasm.Document
import TileVm.Tasm.TranslatorSpec
import TileVm.Tasm.TranslatorAgree
import TileVm.Tasm.JumpTargets
import TileVm.Image.Format
import TileVm.Image.Generate
import TileVm.Image.Load
import TileVm.Lib.Decoder
import TileVm.Image.LoadSpec
import TileVm.Image.LoadSafety
import TileVm.Image.RoundTrip
import TileVm.Lib.Relate
import TileVm.Vm.Shift
import TileVm.Vm.Context
import TileVm.Vm.DeadSlots
import TileVm.Vm.Globals
import TileVm.Vm.Variables
import TileVm.Vm.Arith
import TileVm.Tasm.Grammar
import TileVm.Tasm.ParserGrammar
import TileVm.Tasm.Complete
import TileVm.Tasm.Metadata
import TileVm.Tasm.Scopes
import TileVm.Image.Assembled
import TileVm.Image.Written
import TileVm.Image.NamedTargets
import TileVm.Image.Declarations
import TileVm.Image.ConstBounds
import TileVm.Tasm.Main
import TileVm.Tasm.LexerText
import TileVm.Tasm.Print
import TileVm.Tasm.PrintTokens
import TileVm.Tasm.PrintParse
import TileVm.Tasm.LexerTwins
import TileVm.Tasm.TwinCalls
import TileVm.Lib.Logged
import TileVm.Vm.NativeAccess
import TileVm.Vm.Native
import TileVm.Vm.HeapSet
import TileVm.Vm.ReadBack
import TileVm.Vm.Handles
import TileVm.Lib.Marking
import TileVm.Vm.Collect
import TileVm.Vm.CollectSpec
import TileVm.Vm.CollectSafe
import TileVm.Vm.Origin
import TileVm.Image.PushTags
import TileVm.Image.BlockTags
import TileVm.Lib.StackCode
import TileVm.Nasm.Machine
import TileVm.Nasm.Emit
import TileVm.Nasm.Simulation
import TileVm.Nasm.StackProgram
import TileVm.Nasm.StackRun
import TileVm.Nasm.Agree
import TileVm.Vm.Comparisons
import TileVm.Vm.StackDepth
import TileVm.Vm.Movement
import TileVm.Vm.Sweep
import TileVm.Common.Arena
import TileVm.Common.Carving
import TileVm.Tasm.TableRoom
import TileVm.Tasm.TempVal
import TileVm.Tasm.Bases
import TileVm.Tasm.StringLiterals
import TileVm.Common.Cli
import TileVm.Image.Widths
import TileVm.Tasm.ReadFile
import TileVm.Vm.Graph
import TileVm.Lib.LinkedList
import TileVm.Common.ArenaList
import TileVm.Lib.LoggedLoop
import TileVm.Tasm.LexerReads
import TileVm.Tasm.LexerPosition
import TileVm.Tasm.Noted
import TileVm.Tasm.Quoted
import TileVm.Tasm.Layout
import TileVm.Tasm.LayoutRuns
import TileVm.Image.AddedLayout
import TileVm.Lib.Activation
import TileVm.Vm.Data
import TileVm.Vm.Activations
import TileVm.Vm.FrameMemory
import TileVm.Tasm.Source
import TileVm.Image.SourceRun
import TileVm.Lib.Forward
import TileVm.Vm.Forward
import TileVm.Vm.World
import TileVm.Vm.Tci
import TileVm.Lib.Mirror
import TileVm.Vm.Linked
import TileVm.Vm.Main
import TileVm.Image.Toolchain
import TileVm.Lib.Outline
import TileVm.Lib.Variant
import TileVm.Lib.Strongest
import TileVm.Vm.Outline
import TileVm.Vm.Depths
import TileVm.Vm.Strongest
import TileVm.Tasm.Renaming
import TileVm.Image.Renamed
import TileVm.Vm.Faults
import TileVm.Lib.Closed
import TileVm.Tasm.Appended
import TileVm.Image.Appended
