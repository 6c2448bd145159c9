import PicoBLE.Lib.NorFlash
import PicoBLE.Lib.LTS
import PicoBLE.Lib.Fips180
import PicoBLE.Lib.Bytes
import PicoBLE.Lib.CString
import PicoBLE.Lib.Strtoul
import PicoBLE.Lib.Buffer
import PicoBLE.Lib.Fifo
import PicoBLE.Lib.SlotTable
import PicoBLE.Lib.LinkedList
import PicoBLE.Lib.Locality
import PicoBLE.Lib.LastWord
import PicoBLE.Lib.Crc
import PicoBLE.Ota.Sha256
import PicoBLE.Ota.Sha256Proof
import PicoBLE.Ota.HexDigest
import PicoBLE.Ota.Flash
import PicoBLE.Ota.Metadata
import PicoBLE.Ota.App
import PicoBLE.Ota.Bootloader
import PicoBLE.Ota.Staging
import PicoBLE.Ota.Transfer
import PicoBLE.Ota.Streaming
import PicoBLE.Ota.Integrity
import PicoBLE.Ota.System
import PicoBLE.Ota.Rollback
import PicoBLE.Ota.Interrupted
import PicoBLE.Ota.Probation
import PicoBLE.Ota.Selection
import PicoBLE.Ota.Footprint
import PicoBLE.Ota.Described
import PicoBLE.Ota.WrongSlot
import PicoBLE.Ota.Crc32
import PicoBLE.Ota.Locality
import PicoBLE.Storage.Sector
import PicoBLE.Storage.Scripts
import PicoBLE.Storage.ScriptMap
import PicoBLE.Storage.Config
import PicoBLE.Storage.Credentials
import PicoBLE.System.Bindings
import PicoBLE.System.BindingOps
import PicoBLE.System.BindingIrq
import PicoBLE.System.BindingRecord
import PicoBLE.System.BindingEvents
import PicoBLE.System.BindingMap
import PicoBLE.System.Vars
import PicoBLE.System.Debounce
import PicoBLE.System.VarMap
import PicoBLE.Storage.FailedSave
import PicoBLE.Storage.ExactName
import PicoBLE.Storage.BurstErrors
import PicoBLE.Network.HttpGet
import PicoBLE.Network.HttpStream
import PicoBLE.Network.HttpHead
import PicoBLE.Network.HttpTermination
import PicoBLE.Network.HttpBody
import PicoBLE.Network.HttpRequests
import PicoBLE.Network.UrlGrammar
import PicoBLE.Network.Wifi
import PicoBLE.Ble.BleNus
import PicoBLE.Drivers.PwmCtrl
import PicoBLE.Cli.Parser
import PicoBLE.Cli.Tokenizer
import PicoBLE.Cli.ShellState
import PicoBLE.Cli.Expand
import PicoBLE.Cli.Expansion
import PicoBLE.Cli.State
import PicoBLE.Cli.CmdScript
import PicoBLE.Cli.Commands
import PicoBLE.Cli.PlainLine
import PicoBLE.Cli.Registry
import PicoBLE.Cli.Machine
import PicoBLE.Cli.Effects
import PicoBLE.Cli.CaptureOwner
import PicoBLE.Cli.Store
import PicoBLE.Cli.RunScript
import PicoBLE.Cli.Nesting
import PicoBLE.Cli.ScriptLines
import PicoBLE.Cli.ArgBuffer
import PicoBLE.Cli.Arguments
import PicoBLE.Cli.TypeAhead
import PicoBLE.Cli.LineAssembly
import PicoBLE.Cli.Fetch
import PicoBLE.Cli.Heredoc
import PicoBLE.Cli.CmdOta
import PicoBLE.Cli.DigestArg
import PicoBLE.Cli.DownloadIdle
import PicoBLE.Cli.ShellSteps
import PicoBLE.Cli.RunArgs
import PicoBLE.Cli.LineStatus
import PicoBLE.Cli.CmdGpio
import PicoBLE.Cli.Duration
import PicoBLE.Cli.CmdBind
import PicoBLE.Cli.CmdBindings
import PicoBLE.Cli.CmdWifi
import PicoBLE.Cli.Listing
import PicoBLE.Cli.Retype
import PicoBLE.Firmware.Device
import PicoBLE.Firmware.Components
import PicoBLE.Firmware.Footprint
import PicoBLE.Firmware.Durable
import PicoBLE.Network.HttpTaken
import PicoBLE.Firmware.Update
import PicoBLE.Firmware.Fetched
import PicoBLE.Firmware.Sdk
import PicoBLE.Firmware.Peripherals
import PicoBLE.Firmware.Pins
import PicoBLE.Firmware.Blocks
import PicoBLE.Cli.CmdI2c
import PicoBLE.Cli.Calls
import PicoBLE.Cli.Language
import PicoBLE.Cli.Programs
import PicoBLE.Cli.Quoting
