import Jbdtool.Base.Traced
import Jbdtool.Base.Memory
import Jbdtool.Base.Numbers
import Jbdtool.Base.CString
import Jbdtool.Base.Printf
import Jbdtool.Json.Value
import Jbdtool.Json.Members
import Jbdtool.Json.Parse
import Jbdtool.Json.RoundTrip
import Jbdtool.Frame
import Jbdtool.Host
import Jbdtool.Exchange
import Jbdtool.Session
import Jbdtool.Params
import Jbdtool.Write
import Jbdtool.Display
import Jbdtool.Info
import Jbdtool.Status
import Jbdtool.Bounds
import Jbdtool.CanBounds
import Jbdtool.Base.Runs
import Jbdtool.Lock
import Jbdtool.Matching
import Jbdtool.Options
import Jbdtool.Main
import Jbdtool.Base.Monitor
import Jbdtool.Calls
import Jbdtool.Eeprom
import Jbdtool.EepromExact
import Jbdtool.Base.Observe
import Jbdtool.Bms
import Jbdtool.Dump
import Jbdtool.Base.Tokens
import Jbdtool.Base.Numerals
import Jbdtool.ParseBits
import Jbdtool.Bits
import Jbdtool.Restore
import Jbdtool.SettingsRoundTrip
import Jbdtool.RestoreExact
import Jbdtool.Traffic
import Jbdtool.StartOnly
import Jbdtool.CanFrames
import Jbdtool.Fets
import Jbdtool.Readings
import Jbdtool.ReadRuns
import Jbdtool.Document
import Jbdtool.ReadPaths
import Jbdtool.ExitStatus
import Jbdtool.Mqtt
import Jbdtool.Base.Chain
import Jbdtool.Base.Cursor
import Jbdtool.Lists
import Jbdtool.ListRefine
import Jbdtool.ListSteps
import Jbdtool.ListRuns
import Jbdtool.Cfg
import Jbdtool.CfgLines
import Jbdtool.CfgRoundTrip
import Jbdtool.Bt
import Jbdtool.Names
import Jbdtool.Damage
import Jbdtool.Requests
import Jbdtool.Arrays
import Jbdtool.ReadModify
import Jbdtool.Numeric
import Jbdtool.TextFile
import Jbdtool.Base.Words
import Jbdtool.Balance
import Jbdtool.Base.Extremes
import Jbdtool.CellStats
import Jbdtool.Base.ShiftRegister
import Jbdtool.CanRetries
import Jbdtool.CanCrc
import Jbdtool.CanCells
import Jbdtool.PackState
import Jbdtool.Base.ExchangeSort
import Jbdtool.ListSort
import Jbdtool.Base.Split
import Jbdtool.Strele
import Jbdtool.Can
import Jbdtool.JsonLists
import Jbdtool.Base.Decimals
import Jbdtool.Json.Decimals
import Jbdtool.Base.Buffer
import Jbdtool.InfoLists
import Jbdtool.StreleQuotes
import Jbdtool.Ip
import Jbdtool.Log
import Jbdtool.Base.Keyed
import Jbdtool.CfgStore
import Jbdtool.CfgTable
import Jbdtool.CfgMap
import Jbdtool.CfgFailures
import Jbdtool.CfgNames
import Jbdtool.CfgTyped
import Jbdtool.CfgTab
import Jbdtool.CfgBuffer
import Jbdtool.CfgStandalone
import Jbdtool.Base.Strings
import Jbdtool.AddStr
import Jbdtool.InitPack
import Jbdtool.ListOwner
import Jbdtool.ListLedger
import Jbdtool.Base.Nearest
import Jbdtool.Base.Scientific
import Jbdtool.Base.Precision
import Jbdtool.Json.Grammar
import Jbdtool.Json.Accepted
import Jbdtool.Json.Printed
import Jbdtool.Json.Paths
import Jbdtool.Json.Buffer
import Jbdtool.Netlink
import Jbdtool.Base.Descriptors
import Jbdtool.Transports
import Jbdtool.Channel
import Jbdtool.Agreement
import Jbdtool.PackAgreement
import Jbdtool.Devices
