import MpOS.Lib.Transition
import MpOS.Lib.LinkPath
import MpOS.Lib.ZeroBuffer
import MpOS.Lib.Chunks
import MpOS.Lib.Loop
import MpOS.Lib.TextConsole
import MpOS.Lib.TextLines
import MpOS.Lib.PageWalk
import MpOS.Lib.X86
import MpOS.Lib.X86Stack
import MpOS.Lib.Client
import MpOS.Forest
import MpOS.Faults
import MpOS.ExitStatus
import MpOS.VideoMap
import MpOS.TerminalInput
import MpOS.Streaming
import MpOS.FilePosition
import MpOS.Directory
import MpOS.ReadBuffer
import MpOS.Dispatch
import MpOS.CommandBuffers
import MpOS.Interference
import MpOS.Isolation
import MpOS.Modifiers
import MpOS.LogicalScreens
import MpOS.LineEditing
import MpOS.ProgramLoad
import MpOS.FailedExecute
import MpOS.Getargs
import MpOS.Rtc
import MpOS.BlinkDisplay
import MpOS.GrepSearch
import MpOS.MemoryRoutines
import MpOS.NumberFormat
import MpOS.Printf
import MpOS.AddressSpace
import MpOS.Preemption
import MpOS.RtcWait
import MpOS.Wrappers
import MpOS.Idt
import MpOS.SystemCalls
import MpOS.ProcessFiles
import MpOS.UserPrograms
import MpOS.BlinkPhase
import MpOS.FishFrames
import MpOS.FishFiles
