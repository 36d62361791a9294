import Vmwos.Runs
import Vmwos.Cards
import Vmwos.Blackjack
import Vmwos.GameMoves
import Vmwos.GameInvariant
import Vmwos.Money
import Vmwos.Splits
import Vmwos.HouseHand
import Vmwos.Bitmap
import Vmwos.Memory
import Vmwos.Ownership
import Vmwos.Allocator
import Vmwos.Bytes
import Vmwos.Romfs
import Vmwos.RomfsImage
import Vmwos.RamdiskBounds
import Vmwos.StringWalkers
import Vmwos.Files
import Vmwos.Descriptors
import Vmwos.Dirents
import Vmwos.Listing
import Vmwos.Chains
import Vmwos.Lookup
import Vmwos.FilenameBounds
import Vmwos.FileReads
import Vmwos.NonDirectories
import Vmwos.Console
import Vmwos.ConsoleQueue
import Vmwos.Processes
import Vmwos.ProcessLoops
import Vmwos.ProcessInvariant
import Vmwos.ProcessSteps
import Vmwos.ProcessEvents
import Vmwos.Roster
import Vmwos.Lifetimes
import Vmwos.LooseWaits
import Vmwos.Wakeups
import Vmwos.Times
import Vmwos.Machine
import Vmwos.Waiting
import Vmwos.Scheduling
import Vmwos.Shoe
import Vmwos.Paths
import Vmwos.PathErrors
import Vmwos.Genromfs
import Vmwos.GenromfsLayout
import Vmwos.GenromfsImage
import Vmwos.HostTree
import Vmwos.GenromfsTree
import Vmwos.GenromfsMain
import Vmwos.GenromfsFormat
import Vmwos.HostPaths
import Vmwos.HostFiles
import Vmwos.DeviceTree
import Vmwos.DeviceTreeSearch
import Vmwos.DeviceTreeWalk
import Vmwos.DeviceTreeValues
import Vmwos.DeviceTreeStrings
import Vmwos.MemorySize
import Vmwos.NextFit
import Vmwos.Accesses
import Vmwos.Turns
import Vmwos.Bankroll
import Vmwos.Scoring
import Vmwos.Shuffle
import Vmwos.Stores
import Vmwos.Strings
import Vmwos.Exec
import Vmwos.ArgvCopy
import Vmwos.ExecArgv
import Vmwos.Division
import Vmwos.Random
import Vmwos.Shell
import Vmwos.LineEditing
import Vmwos.Printf
import Vmwos.PrintfBounds
import Vmwos.PrintfRendering
import Vmwos.TimePretty
import Vmwos.Gregorian
import Vmwos.PrintDate
import Vmwos.BetPrompt
import Vmwos.I2c
import Vmwos.Arm
import Vmwos.Memset
import Vmwos.ArmCore
import Vmwos.SlidingWindow
import Vmwos.Logo
import Vmwos.LogoRoutines
import Vmwos.LogoDecompression
import Vmwos.WordCopies
import Vmwos.Serial
import Vmwos.Cat
