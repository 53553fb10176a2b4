import LeakimMisc.PyStr
import LeakimMisc.TextLines
import LeakimMisc.BlockForest
import LeakimMisc.ListPieces
import LeakimMisc.StructEnum
import LeakimMisc.StructEnumLines
import LeakimMisc.StructEnumHoist
import LeakimMisc.StructEnumScan
import LeakimMisc.StructEnumRun
import LeakimMisc.StructEnumPass
import LeakimMisc.StructEnumErrors
import LeakimMisc.StructEnumLayout
import LeakimMisc.StructEnumRestore
import LeakimMisc.StructEnumHeads
import LeakimMisc.StructEnumTags
import LeakimMisc.StructEnumSpacing
import LeakimMisc.StructEnumEdit
import LeakimMisc.StructEnumClosing
import LeakimMisc.StructEnumKept
import LeakimMisc.StructEnumNames
import LeakimMisc.SelectLoop
import LeakimMisc.SelectRuns
import LeakimMisc.CliServer
import LeakimMisc.CliServerCommands
import LeakimMisc.CliServerBuffer
import LeakimMisc.CliServerSets
import LeakimMisc.RelayServer
import LeakimMisc.ParsIes
import LeakimMisc.ParsIesBlocks
import LeakimMisc.ParsIesLines
import LeakimMisc.BoundedTable
import LeakimMisc.UsbHub
import LeakimMisc.UsbHubTable
import LeakimMisc.HubCtrl
import LeakimMisc.UsbHubHandles
import LeakimMisc.HubCtrlOptions
import LeakimMisc.HubCtrlSelection
import LeakimMisc.HubCtrlRequest
import LeakimMisc.LabelledRuns
import LeakimMisc.WaitQueue
import LeakimMisc.WaitQueueWakeups
import LeakimMisc.RowTable
import LeakimMisc.WlanApSta
import LeakimMisc.WlanApStaTable
import LeakimMisc.WlanApStaDraw
import LeakimMisc.FindDups
import LeakimMisc.ByteBlock
import LeakimMisc.Mcast
import LeakimMisc.StackTrace
import LeakimMisc.Hexdump
import LeakimMisc.WlanRssi
import LeakimMisc.TapLoop
import LeakimMisc.TunDev
import LeakimMisc.DictTotals
import LeakimMisc.GetSize
import LeakimMisc.ScanInt
import LeakimMisc.ConfigOptarg
import LeakimMisc.Getopt
import LeakimMisc.ConfigOptargLoop
import LeakimMisc.CCTreeDigraph
import LeakimMisc.Interning
import LeakimMisc.CCTreeSymbols
import LeakimMisc.CCTreeXRef
import LeakimMisc.LevelTree
import LeakimMisc.CCTreeTrace
import LeakimMisc.CCTreeDisplay
import LeakimMisc.CCTreeMarks
import LeakimMisc.CCTreeUncompress
import LeakimMisc.CliServerMain
import LeakimMisc.CCTreeWindow
import LeakimMisc.ThreadsAndTimers
import LeakimMisc.DumpLl
import LeakimMisc.CCTreeFolds
