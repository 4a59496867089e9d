import AgnostOS.Globals
import AgnostOS.Library.Word
import AgnostOS.Library.Span
import AgnostOS.Library.Subdivision
import AgnostOS.Library.Table
import AgnostOS.Library.Ledger
import AgnostOS.Library.Machine
import AgnostOS.Library.ByteMemory
import AgnostOS.Library.Loop
import AgnostOS.MemoryMap
import AgnostOS.Reservation
import AgnostOS.Handover
import AgnostOS.FrameAllocator
import AgnostOS.FreeList
import AgnostOS.FrameCalls
import AgnostOS.UsableMemory
import AgnostOS.FrameRuns
import AgnostOS.FrameOwnership
import AgnostOS.FrameAlignment
import AgnostOS.Library.Seam
import AgnostOS.FrameCoalescing
import AgnostOS.HeapRegion
import AgnostOS.HeapOwnership
import AgnostOS.HeapAllocator
import AgnostOS.HeapList
import AgnostOS.HeapCalls
import AgnostOS.HeapSafety
import AgnostOS.HeapAccounting
import AgnostOS.Library.Trace
import AgnostOS.Library.RoundRobin
import AgnostOS.TaskStack
import AgnostOS.Scheduler
import AgnostOS.SchedulerRuns
import AgnostOS.TaskLifecycle
import AgnostOS.TaskFairness
import AgnostOS.TaskIds
import AgnostOS.Library.Fifo
import AgnostOS.InputQueue
import AgnostOS.Mouse
import AgnostOS.MousePackets
import AgnostOS.Keyboard
import AgnostOS.ShellLoop
import AgnostOS.Graphics
import AgnostOS.MouseCursor
import AgnostOS.Library.Utf8
import AgnostOS.Commands
import AgnostOS.Console
import AgnostOS.Shell
import AgnostOS.ConsoleText
import AgnostOS.Library.Split
import AgnostOS.ShellText
import AgnostOS.ShellLines
import AgnostOS.LineEditor
import AgnostOS.CommandOutput
import AgnostOS.CommandHistory
import AgnostOS.LineLength
import AgnostOS.BackgroundOutput
import AgnostOS.Library.Attempt
import AgnostOS.Library.Radix
import AgnostOS.VirtualRange
import AgnostOS.PageTables
import AgnostOS.PageMapper
import AgnostOS.Paging
import AgnostOS.PageTree
import AgnostOS.PageWalk
import AgnostOS.PageCalls
import AgnostOS.BootMapping
import AgnostOS.IdentityMapping
import AgnostOS.PageArena
import AgnostOS.RecursiveSlot
import AgnostOS.MappingReturns
import AgnostOS.PageWindows
import AgnostOS.FramebufferMap
import AgnostOS.DeviceMapping
import AgnostOS.ScrollGrid
import AgnostOS.ConsoleCalls
import AgnostOS.CursorRows
import AgnostOS.TaskBudget
import AgnostOS.HeapAlignment
import AgnostOS.Library.LabelTree
import AgnostOS.Profiling
import AgnostOS.ProfileRuns
import AgnostOS.Library.Dict
import AgnostOS.Library.Subtree
import AgnostOS.FlameGraph
import AgnostOS.FlameRecords
import AgnostOS.FlameWeights
import AgnostOS.LineLayout
import AgnostOS.TabCompletion
import AgnostOS.HistoryBrowsing
import AgnostOS.Library.SignedWord
import AgnostOS.Library.Writes
import AgnostOS.Library.DigitalLine
import AgnostOS.Pixels
import AgnostOS.Primitives
import AgnostOS.ScrollRows
import AgnostOS.LineDrawing
import AgnostOS.Timer
import AgnostOS.Library.StackMachine
import AgnostOS.ContextSwitch
import AgnostOS.EditCalls
import AgnostOS.Redraw
import AgnostOS.GlyphPixels
import AgnostOS.RedrawPixels
import AgnostOS.GlyphCells
import AgnostOS.MappingCalls
import AgnostOS.CtrlKeys
import AgnostOS.Library.StringLiteral
import AgnostOS.StringLiterals
import AgnostOS.Library.TokenTree
import AgnostOS.Instrumentation
import AgnostOS.HookInsertion
import AgnostOS.Library.RustItems
import AgnostOS.ScopeRewrite
import AgnostOS.ItemHooks
import AgnostOS.FrameHandles
import AgnostOS.Library.SpanPoints
import AgnostOS.MemoryTotals
import AgnostOS.HeapPlacement
import AgnostOS.Library.Simulation
import AgnostOS.PageMap
import AgnostOS.BootedHeap
import AgnostOS.Library.Coroutine
import AgnostOS.TaskSwitching
import AgnostOS.Library.Words
import AgnostOS.CommandWords
import AgnostOS.Library.Pic8259
import AgnostOS.Interrupts
import AgnostOS.Library.PortIo
import AgnostOS.Ps2Controller
import AgnostOS.EmergencyText
import AgnostOS.Library.ParentLinks
import AgnostOS.FlameTrees
import AgnostOS.TypedInput
import AgnostOS.Library.MacroCalls
import AgnostOS.Library.UnixPath
import AgnostOS.IncludePaths
import AgnostOS.Library.RustModules
import AgnostOS.ModulePaths
