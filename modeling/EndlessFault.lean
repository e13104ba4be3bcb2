import EndlessFault.Lib.Machine
import EndlessFault.Lib.Bytes
import EndlessFault.Lib.Ring
import EndlessFault.GuestMemory
import EndlessFault.Backend.DiskManager
import EndlessFault.Frontend.HardDisk
import EndlessFault.Frontend.DataPort
import EndlessFault.Frontend.Transfer
import EndlessFault.Frontend.DiskCommands
import EndlessFault.Frontend.Isolation
import EndlessFault.Frontend.Keyboard
import EndlessFault.Frontend.KeyboardQueue
import EndlessFault.Frontend.KeyboardStatus
import EndlessFault.Elf.Eseguibile
import EndlessFault.Elf.Estrattore
import EndlessFault.Gdbserver.Packet
import EndlessFault.Gdbserver.Stub
import EndlessFault.Gdbserver.MemoryCommands
import EndlessFault.Lib.Words
import EndlessFault.Lib.Paging
import EndlessFault.Elf.Immagine
import EndlessFault.Elf.Riconoscimento
import EndlessFault.Elf.Troncati
import EndlessFault.Elf.Ordine
import EndlessFault.Elf.Tabella
import EndlessFault.Bootloader.Bootloader
import EndlessFault.Bootloader.PageTables
import EndlessFault.Bootloader.AddressSpace
import EndlessFault.Bootloader.Preparation
import EndlessFault.Bootloader.SegmentDescriptors
import EndlessFault.Backend.ConsoleInput
import EndlessFault.Backend.TypedText
import EndlessFault.Backend.KeyEncoding
import EndlessFault.Frontend.KeyboardEdges
import EndlessFault.DebugServer.Messages
import EndlessFault.DebugServer.ByteOrder
import EndlessFault.DebugServer.NetWrapper
import EndlessFault.DebugServer.Framing
import EndlessFault.DebugServer.DebugServer
import EndlessFault.DebugServer.Replies
import EndlessFault.DebugServer.Dispatches
import EndlessFault.Frontend.DiskInterrupts
import EndlessFault.Frontend.DiskWrites
import EndlessFault.Frontend.DiskErrors
import EndlessFault.Frontend.Handshake
import EndlessFault.Frontend.PCIDevice
import EndlessFault.Frontend.PciHost
import EndlessFault.Frontend.ConfigurationSpace
import EndlessFault.Frontend.AccessWidths
import EndlessFault.Frontend.PciBounds
import EndlessFault.Frontend.IoDispatch
import EndlessFault.Frontend.SerialPort
import EndlessFault.Gdbserver.Reception
import EndlessFault.Gdbserver.RegisterCommands
import EndlessFault.Gdbserver.RegisterCache
import EndlessFault.Gdbserver.Malformed
import EndlessFault.Gdbserver.SentPackets
import EndlessFault.Gdbserver.Acknowledgement
import EndlessFault.Gdbserver.EndOfFile
import EndlessFault.Gdbserver.HexNumbers
import EndlessFault.Frontend.VGAController
import EndlessFault.Lib.Terminal
import EndlessFault.Backend.ConsoleOutput
import EndlessFault.Backend.Screen
import EndlessFault.Kvm.Vm
import EndlessFault.Kvm.Relocation
import EndlessFault.Kvm.Guest
import EndlessFault.Gdbserver.LineErrors
import EndlessFault.Gdbserver.Session
import EndlessFault.Kvm.DebugRun
import EndlessFault.Target.KeyboardProgram
import EndlessFault.Target.DiskDriver
import EndlessFault.Target.LeggiLinea
import EndlessFault.Target.Leggisett
import EndlessFault.Target.ModTas
import EndlessFault.Target.Scrivisett
import EndlessFault.Target.WriteThenRead
import EndlessFault.Config.IniFile
import EndlessFault.Config.IniSyntax
import EndlessFault.Config.IniReader
import EndlessFault.Config.Settings
