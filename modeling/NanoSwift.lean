import NanoSwift.Lib.Outcome
import NanoSwift.Lib.BlockCode
import NanoSwift.Lib.BlockBuffer
import NanoSwift.Lib.Limbs
import NanoSwift.Lib.Pocklington
import NanoSwift.Lib.Edwards
import NanoSwift.Lib.SignedDigits
import NanoSwift.Lib.Radix
import NanoSwift.Lib.Cascade
import NanoSwift.Lib.Runs
import NanoSwift.Text
import NanoSwift.Bytes
import NanoSwift.Monocypher.Words
import NanoSwift.Monocypher.Chacha20
import NanoSwift.Monocypher.Blake2b
import NanoSwift.Monocypher.ModL
import NanoSwift.Monocypher.Primes
import NanoSwift.Monocypher.Field
import NanoSwift.Monocypher.FieldBytes
import NanoSwift.Monocypher.FieldPower
import NanoSwift.Monocypher.Points
import NanoSwift.Monocypher.BasePoint
import NanoSwift.Monocypher.Comb
import NanoSwift.Monocypher.Slide
import NanoSwift.Monocypher.EdDSA
import NanoSwift.Encoder
import NanoSwift.Account
import NanoSwift.AccountArray
import NanoSwift.AccountMap
import NanoSwift.Wallet
import NanoSwift.Address
import NanoSwift.AddressCheck
import NanoSwift.AddressVerdicts
import NanoSwift.Seeds
import NanoSwift.Amount
import NanoSwift.RawBytes
import NanoSwift.Block
import NanoSwift.BlockChecks
import NanoSwift.BlockManager
import NanoSwift.Send
import NanoSwift.Node
import NanoSwift.NodeQueries
import NanoSwift.Completion
import NanoSwift.NodeErrors
import NanoSwift.PendingResponse
import NanoSwift.NodeForms
import NanoSwift.Pending
import NanoSwift.Signed
