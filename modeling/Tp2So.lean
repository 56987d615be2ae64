import Tp2So.Lib.Runs
import Tp2So.Lib.Ring
import Tp2So.Lib.Cpu
import Tp2So.Queue.Adt
import Tp2So.Kernel.State
import Tp2So.Kernel.Sched
import Tp2So.Kernel.Sem
import Tp2So.Kernel.Pipe
import Tp2So.Kernel.Process
import Tp2So.Kernel.Calls
import Tp2So.Ready.Inv
import Tp2So.Ready.Moves
import Tp2So.Ready.Tick
import Tp2So.Ready.Wakes
import Tp2So.Ready.Birth
import Tp2So.Ready.Runs
import Tp2So.Sync.Registry
import Tp2So.Sync.Slots
import Tp2So.Sync.Lives
import Tp2So.Sync.Waiters
import Tp2So.Sync.Posts
import Tp2So.Sync.Ledger
import Tp2So.Sync.WaitPid
import Tp2So.Sync.Window
import Tp2So.Sync.Forge
import Tp2So.Family.Census
import Tp2So.Family.Vitals
import Tp2So.Family.Pids
import Tp2So.Family.Leaks
import Tp2So.Family.Orphans
import Tp2So.Locks.Spin
import Tp2So.Guard.Edits
import Tp2So.Guard.Calls
import Tp2So.Guard.Tick
import Tp2So.Guard.Runs
import Tp2So.Pipes.Loops
import Tp2So.Pipes.View
import Tp2So.Pipes.Transfer
import Tp2So.Pipes.Open
import Tp2So.Pipes.Traffic
import Tp2So.Pipes.Turns
import Tp2So.Pipes.Crowd
import Tp2So.Pipes.Deadlock
import Tp2So.Pipes.Detach
import Tp2So.Pipes.Stream
import Tp2So.Pipes.Store
import Tp2So.Pipes.Expected
import Tp2So.Pipes.Aims
import Tp2So.Pipes.Counts
import Tp2So.Pipes.Books
import Tp2So.Pipes.Tokens
import Tp2So.Pipes.Relief
import Tp2So.Lib.Bytes
import Tp2So.Lib.Links
import Tp2So.Lib.Tiling
import Tp2So.Kernel.Buddy
import Tp2So.Kernel.FirstFit
import Tp2So.Memory.Blocks
import Tp2So.Memory.Laid
import Tp2So.Memory.BuddyCalls
import Tp2So.Memory.Client
import Tp2So.Memory.BuddyRuns
import Tp2So.Memory.Strung
import Tp2So.Kernel.Mvar
import Tp2So.Mvar.Session
import Tp2So.Mvar.Restart
import Tp2So.Sync.Users
import Tp2So.Lib.Copy
import Tp2So.Kernel.Modules
import Tp2So.Boot.Image
import Tp2So.Ready.Aging
import Tp2So.Ready.Counting
import Tp2So.Ready.RoundRobin
import Tp2So.Ready.Boosts
import Tp2So.Ready.Evolve
import Tp2So.Family.WaitAll
import Tp2So.Kernel.Create
import Tp2So.Family.AllOrNothing
import Tp2So.Memory.FirstFitCalls
import Tp2So.Memory.FirstFitJoin
import Tp2So.Memory.FirstFitRuns
import Tp2So.Memory.Contents
import Tp2So.Memory.BuddyRequests
import Tp2So.Memory.FirstFitRequests
import Tp2So.Pipes.Capacity
import Tp2So.Pipes.Retarget
import Tp2So.Kernel.Scarce
import Tp2So.Ready.Lost
import Tp2So.Sync.Unregistered
import Tp2So.Sync.Stranded
import Tp2So.Lib.Fields
import Tp2So.Kernel.Pcb
import Tp2So.Kernel.Frees
import Tp2So.Family.Collect
import Tp2So.Family.Rooted
import Tp2So.Family.Teardown
import Tp2So.Family.Recycled
import Tp2So.Lib.Gaps
import Tp2So.Memory.FirstFitSpace
import Tp2So.Memory.Inverse
import Tp2So.Memory.Commute
import Tp2So.Lib.Reverse
import Tp2So.Libc.Chars
import Tp2So.Libc.Stdlib
import Tp2So.Libc.AnsiColors
import Tp2So.Libc.Stdio
import Tp2So.Text.Format
import Tp2So.Text.Verbatim
import Tp2So.Text.Decimal
import Tp2So.Text.Scan
import Tp2So.Kernel.Fonts
import Tp2So.Console.Screen
import Tp2So.Kernel.Keyboard
import Tp2So.Console.Typing
import Tp2So.Lib.DoWhile
import Tp2So.Console.TabStops
import Tp2So.Boot.Granularity
import Tp2So.Console.Handlers
import Tp2So.Kernel.Numbers
import Tp2So.Text.Numbers
import Tp2So.Queue.Pointers
import Tp2So.Queue.Chain
import Tp2So.Queue.Steps
import Tp2So.Queue.Refines
import Tp2So.Queue.Cursor
import Tp2So.Kernel.Ps
import Tp2So.Family.Snapshot
import Tp2So.Libc.Strings
import Tp2So.Text.Tokens
import Tp2So.Shell.Line
import Tp2So.Shell.Words
import Tp2So.Shell.Calls
import Tp2So.Shell.Loop
import Tp2So.Shell.Turn
import Tp2So.Shell.Prompt
import Tp2So.Shell.Bounds
import Tp2So.Shell.Release
import Tp2So.Shell.Segments
import Tp2So.Text.Pieces
import Tp2So.Lib.Moves
import Tp2So.Kernel.Video
import Tp2So.Console.Scroll
import Tp2So.Lib.Stack
import Tp2So.Kernel.Machine
import Tp2So.Machine.Frames
import Tp2So.Machine.Handlers
import Tp2So.Ready.Rules
import Tp2So.Ready.Parked
import Tp2So.Machine.Stacks
import Tp2So.Machine.Switch
import Tp2So.Machine.Start
import Tp2So.Ready.Sound
import Tp2So.Lib.Lines
import Tp2So.Ready.Line
import Tp2So.Ready.Choice
import Tp2So.Ready.Waiting
import Tp2So.Machine.Idle
import Tp2So.Lib.Tallies
import Tp2So.Programs.TestSync
import Tp2So.Programs.Exclusion
import Tp2So.Programs.IncSteps
import Tp2So.Programs.FinalValue
import Tp2So.Mvar.Progress
import Tp2So.Memory.Contract
import Tp2So.Programs.TestMm
import Tp2So.Programs.MmOwners
import Tp2So.Programs.MmRounds
import Tp2So.Lib.Jobs
import Tp2So.Programs.Filters
import Tp2So.Pipes.Pipeline
import Tp2So.Pipes.Composed
import Tp2So.Pipes.Composition
import Tp2So.Pipes.Finishing
import Tp2So.Programs.Pipelines
import Tp2So.Machine.Clock
import Tp2So.Guard.Protected
