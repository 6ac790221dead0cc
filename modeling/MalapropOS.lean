import MalapropOS.Scheduler.Priority
import MalapropOS.Scheduler.Context
import MalapropOS.Scheduler.Rotation
import MalapropOS.Scheduler.Waiting
import MalapropOS.Scheduler.Entries
import MalapropOS.Pipeline
import MalapropOS.Disk.Store
import MalapropOS.Fat.Walkers
import MalapropOS.Fat.Append
import MalapropOS.Fat.Orphans
import MalapropOS.Fat.Unlink
import MalapropOS.Scheduler.Exits
import MalapropOS.Scheduler.Stacks
import MalapropOS.Disclosure
import MalapropOS.Shell.Editor
import MalapropOS.Fat.Failures
import MalapropOS.Fat.Contents
import MalapropOS.Shell.Input
import MalapropOS.Fat.Descent
import MalapropOS.Fat.Growth
import MalapropOS.Fat.Reopen
import MalapropOS.Fat.Insertion
import MalapropOS.Fat.Rewrite
import MalapropOS.Fat.RootSearch
import MalapropOS.Fat.Creation
import MalapropOS.Fat.NewDirectory
import MalapropOS.Fat.SplitName
import MalapropOS.Fat.Padding
import MalapropOS.Fat.PathNames
import MalapropOS.Fat.Lookup
import MalapropOS.Fat.Resolvers
import MalapropOS.Fat.Table
import MalapropOS.Mlibc.Decimal
import MalapropOS.Shell.Command
import MalapropOS.Mlibc.Allocator
import MalapropOS.Fat.Termination
import MalapropOS.Lib.Horner
import MalapropOS.Mlibc.Strtol
import MalapropOS.Scheduler.HighPriority
import MalapropOS.Fat.Sectors
import MalapropOS.Fat.SectorCalls
import MalapropOS.Fat.OverUart
import MalapropOS.Fat.InBounds
import MalapropOS.Lib.Arm
import MalapropOS.Startup
import MalapropOS.ContextSwitch
import MalapropOS.Lib.QueueFamily
import MalapropOS.Scheduler.Linked
import MalapropOS.Lib.Lockstep
import MalapropOS.Scheduler.Refinement
import MalapropOS.Scheduler.LinkedRuns
import MalapropOS.Fat.ByteFiles
import MalapropOS.User.Files
import MalapropOS.Shell.Mush
