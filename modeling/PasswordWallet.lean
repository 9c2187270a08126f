import PasswordWallet.PowerLoss.Program
import PasswordWallet.PowerLoss.Logic
import PasswordWallet.Memory.Image
import PasswordWallet.Security.Cipher
import PasswordWallet.Security.Random
import PasswordWallet.Security.Password
import PasswordWallet.Security.Backup
import PasswordWallet.Security.Encryption
import PasswordWallet.Security.PasswordList
import PasswordWallet.Options.CallbackPassword
import PasswordWallet.Security.Authentification
import PasswordWallet.Security.Recover
import PasswordWallet.Rekey.UpdateKey
import PasswordWallet.Rekey.Progress
import PasswordWallet.Rekey.Recovery
import PasswordWallet.Proofs.Aliasing
import PasswordWallet.Proofs.AtomicEdit
import PasswordWallet.Proofs.RekeyComplete
import PasswordWallet.Proofs.RekeyCrash
import PasswordWallet.Proofs.KeyChangeFinished
import PasswordWallet.LinkedList.Linked
import PasswordWallet.Lists.Actions
import PasswordWallet.Lists.Add
import PasswordWallet.Lists.Delete
import PasswordWallet.Lists.Entry
import PasswordWallet.Lists.Links
import PasswordWallet.Lists.Map
import PasswordWallet.Lists.Orders
import PasswordWallet.Lists.Sort
import PasswordWallet.Lists.SortAccesses
import PasswordWallet.Lists.Store
import PasswordWallet.Lists.Table
import PasswordWallet.Lists.Walk
import PasswordWallet.Memory.Layout
import PasswordWallet.Proofs.ListInvariant
import PasswordWallet.Proofs.SortedLists
import PasswordWallet.Proofs.TableRefinement
import PasswordWallet.States.WaitCard
import PasswordWallet.Proofs.ListCrash
import PasswordWallet.LinkedList.Round
import PasswordWallet.Proofs.Browsing
import PasswordWallet.Communication.Session
import PasswordWallet.Communication.Commands
import PasswordWallet.Communication.Process
import PasswordWallet.Framing.Reader
import PasswordWallet.Communication.Parsing
import PasswordWallet.Communication.Pointer
import PasswordWallet.Proofs.CommandFraming
import PasswordWallet.Communication.Effects
import PasswordWallet.Communication.Single
import PasswordWallet.Proofs.SetFram
import PasswordWallet.Communication.Background
import PasswordWallet.Communication.Position
import PasswordWallet.Communication.Transfer
import PasswordWallet.Proofs.TransferPosition
import PasswordWallet.Communication.Consent
import PasswordWallet.Communication.Closed
import PasswordWallet.Proofs.ConsentGate
import PasswordWallet.Communication.Replies
import PasswordWallet.Proofs.NameEnds
import PasswordWallet.Proofs.OneReply
import PasswordWallet.Patching.Slice
import PasswordWallet.Utility.TransferFram
import PasswordWallet.Proofs.MemoryPatch
import PasswordWallet.PowerLoss.Frame
import PasswordWallet.Options.CallbackAdvanced
import PasswordWallet.Options.LeavesKey
import PasswordWallet.PowerLoss.Recording
import PasswordWallet.PowerLoss.Sequence
import PasswordWallet.States.Recovery
import PasswordWallet.Communication.KeyCommands
import PasswordWallet.Proofs.RightKey
import PasswordWallet.Proofs.SecretStorage
import PasswordWallet.Proofs.FullReset
import PasswordWallet.Proofs.StableSort
import PasswordWallet.Communication.Accesses
import PasswordWallet.Proofs.PacketBounds
import PasswordWallet.Reporting.Endpoint
import PasswordWallet.USB.Keyboard
import PasswordWallet.Proofs.TypedKeys
import PasswordWallet.Proofs.Keystrokes
import PasswordWallet.Hardware.Rfid
import PasswordWallet.Proofs.CardReads
import PasswordWallet.TextEditing.Code
import PasswordWallet.Graphics.TypeString
import PasswordWallet.Graphics.Letters
import PasswordWallet.Proofs.TypedText
import PasswordWallet.Options.Entries
import PasswordWallet.Options.SortCalls
import PasswordWallet.Options.TypedActions
import PasswordWallet.Proofs.TypedBuffers
import PasswordWallet.Supply.Stock
import PasswordWallet.Security.Entropy
import PasswordWallet.Proofs.EntropyOnce
import PasswordWallet.Searching.Nearest
import PasswordWallet.States.Browse
import PasswordWallet.Proofs.LetterBrowsing
import PasswordWallet.Radix.Weights
import PasswordWallet.Graphics.Ascii85
import PasswordWallet.Utility.MemoryAccess
import PasswordWallet.Proofs.KeyText
import PasswordWallet.LinkedList.Chain
import PasswordWallet.Options.Menu
import PasswordWallet.Options.List
import PasswordWallet.Proofs.MenuHighlight
import PasswordWallet.Debouncing.Debouncer
import PasswordWallet.Hardware.Buttons
import PasswordWallet.Proofs.Debouncing
import PasswordWallet.Utility.OptionParser
import PasswordWallet.Proofs.OptionTree
import PasswordWallet.Desktop.SerialCommand
import PasswordWallet.Proofs.HostCommands
import PasswordWallet.Text.Utf
import PasswordWallet.Desktop.QString
import PasswordWallet.Desktop.Blocks
import PasswordWallet.Proofs.HostBlocks
import PasswordWallet.DesktopApp.Password
import PasswordWallet.DesktopApp.DeviceData
import PasswordWallet.Proofs.HostAdd
import PasswordWallet.Packing.Definitions
import PasswordWallet.Packing.Bits
import PasswordWallet.Utility.PugiXml
import PasswordWallet.Utility.MemoryRepresentation
import PasswordWallet.Proofs.LoadedLayout
import PasswordWallet.Proofs.OptionBits
import PasswordWallet.BinaryField.Residue
import PasswordWallet.Rijndael.Field
import PasswordWallet.Rijndael.Cipher
import PasswordWallet.Rijndael.Chaining
import PasswordWallet.Security.Aes
import PasswordWallet.Proofs.AesCipher
import PasswordWallet.Proofs.AesBuffers
import PasswordWallet.DesktopApp.Aes
import PasswordWallet.Proofs.HostAes
import PasswordWallet.Utility.TransferSession
import PasswordWallet.Proofs.MemoryTransfer
import PasswordWallet.Desktop.SerialInterface
import PasswordWallet.Proofs.HostSending
import PasswordWallet.Exceptions.Rules
import PasswordWallet.Hardware.Selection
import PasswordWallet.Proofs.CardSelection
import PasswordWallet.Proofs.CardsInField
