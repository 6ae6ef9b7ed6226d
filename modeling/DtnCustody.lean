import DtnCustody.Base.Armor
import DtnCustody.Base.JsMap
import DtnCustody.Cbor.RoundTrip
import DtnCustody.Transport.Cose
import DtnCustody.Keyring.Ring
import DtnCustody.Keyring.Lookup
import DtnCustody.Keyring.Anchors
import DtnCustody.Keyring.Quiet
import DtnCustody.Keyring.Poison
import DtnCustody.Keyring.Depth
import DtnCustody.Keyring.Evidence
import DtnCustody.Keyring.Arrival
import DtnCustody.Transport.Bundle
import DtnCustody.Transport.ReceiptV2
import DtnCustody.Transport.HopBinding
import DtnCustody.Transport.HopAudit
import DtnCustody.Json.Value
import DtnCustody.Json.Canonical
import DtnCustody.Agent.Merkle
import DtnCustody.Agent.Path
import DtnCustody.Agent.Source
import DtnCustody.Agent.Dest
import DtnCustody.Agent.Delivery
import DtnCustody.Agent.Custody
import DtnCustody.Relief.Clinic
import DtnCustody.Relief.Hub
import DtnCustody.Cbor.Consume
import DtnCustody.Transport.BundleShape
import DtnCustody.Agent.PathTimes
import DtnCustody.Json.Text
import DtnCustody.Json.KeyOrder
import DtnCustody.Json.Look
import DtnCustody.Agent.Binding
import DtnCustody.Cbor.Items
import DtnCustody.Transport.Encode
import DtnCustody.Transport.BundleCodec
import DtnCustody.Transport.BundleInverse
import DtnCustody.Js.Check
import DtnCustody.Json.Returns
import DtnCustody.Agent.Chain
import DtnCustody.Transport.CustodyBlock
import DtnCustody.Transport.VerifyV2
import DtnCustody.Transport.VerdictsV2
import DtnCustody.Transport.Bpsec
import DtnCustody.Transport.Verdicts
import DtnCustody.Base.Sweep
import DtnCustody.Json.Parse
import DtnCustody.Transport.BundleWritten
import DtnCustody.Agent.Reading
import DtnCustody.Gateway.Ingress
import DtnCustody.Gateway.Reassembly
import DtnCustody.Gateway.Fragments
import DtnCustody.Gateway.Assembly
import DtnCustody.Gateway.Shipment
import DtnCustody.Gateway.Interleaving
import DtnCustody.Transport.AcceptedV2
import DtnCustody.Transport.AuditV2
import DtnCustody.Agent.Batch
import DtnCustody.Base.Framing
import DtnCustody.Gateway.Tcpcl4
import DtnCustody.Gateway.Tcpcl4Frames
import DtnCustody.Gateway.Tcpcl4Exact
import DtnCustody.Gateway.Tcpcl4Memory
import DtnCustody.Gateway.Tcpcl3
import DtnCustody.Gateway.SessionStart
import DtnCustody.Gateway.Tcpcl3Acks
import DtnCustody.Base.Digits
import DtnCustody.Gateway.Spool
import DtnCustody.Gateway.Tcpcl4Promise
import DtnCustody.Gateway.Pump
import DtnCustody.Agent.StreamMerkle
import DtnCustody.Transport.BibVerdict
import DtnCustody.Base.AnswerOnce
import DtnCustody.Radio.Frame
import DtnCustody.Radio.Text
import DtnCustody.Radio.Gateway
import DtnCustody.Radio.SmsGateway
import DtnCustody.Radio.Faucet
import DtnCustody.Radio.FaucetLimits
import DtnCustody.Relief.Earned
import DtnCustody.Relief.PaidFor
import DtnCustody.Relief.Payout
import DtnCustody.Base.Text
import DtnCustody.Flight.Custody
import DtnCustody.Flight.Fold
import DtnCustody.Flight.Records
import DtnCustody.Flight.Reference
import DtnCustody.Relief.Provision
import DtnCustody.Relief.Replay
import DtnCustody.Relief.Digestible
import DtnCustody.Relief.Intact
import DtnCustody.Relief.Restart
import DtnCustody.Gateway.FromDtn
import DtnCustody.Base.Capped
import DtnCustody.Base.Cuts
import DtnCustody.Gateway.Tcpcl3Frames
import DtnCustody.Keyring.Carry
import DtnCustody.Transport.AddBib
import DtnCustody.Transport.Custodians
import DtnCustody.Base.FirstPays
import DtnCustody.Cbor.Encodable
import DtnCustody.Ssi.BadClaims
import DtnCustody.Ssi.ClearingOrder
import DtnCustody.Agent.Pinned
import DtnCustody.Relief.Region
import DtnCustody.Relief.Handoffs
import DtnCustody.Ssi.Network
import DtnCustody.Ssi.OnPlan
import DtnCustody.Flight.Root
import DtnCustody.Base.FileTree
import DtnCustody.Gateway.FirstParts
import DtnCustody.Relief.Folders
import DtnCustody.Relief.Resend
import DtnCustody.Base.Places
import DtnCustody.Gateway.Certificate
import DtnCustody.Base.InOrder
import DtnCustody.Gateway.Aap
import DtnCustody.Gateway.AapReplies
import DtnCustody.Ground.Ledger
import DtnCustody.Ground.Sealed
import DtnCustody.Agent.Acceptance
import DtnCustody.Agent.Detours
import DtnCustody.Agent.Misread
import DtnCustody.Agent.ChainsAgree
import DtnCustody.ContactPlans.Compile
import DtnCustody.Ground.Silence
import DtnCustody.Radio.Collected
import DtnCustody.Relief.KeyHistory
import DtnCustody.Voyager.Link
import DtnCustody.Voyager.Outages
import DtnCustody.Base.Gather
import DtnCustody.Base.Largest
import DtnCustody.Base.Pieces
import DtnCustody.ContactPlans.Agreement
import DtnCustody.ContactPlans.Sign
import DtnCustody.IpSf.Receipts
import DtnCustody.IpSf.Matched
import DtnCustody.Js.Operators
import DtnCustody.Radio.CoinLines
import DtnCustody.Radio.Ham
import DtnCustody.Radio.HamTexts
import DtnCustody.Radio.OfflineCheck
import DtnCustody.Radio.ReceiptHeard
import DtnCustody.Radio.Wallet
import DtnCustody.Voyager.Schedule
import DtnCustody.Base.Crc
import DtnCustody.Base.Greedy
import DtnCustody.Base.Space
import DtnCustody.Constellation.Links
import DtnCustody.Transport.CrcFeed
import DtnCustody.Transport.Receiver
import DtnCustody.Base.Checked
import DtnCustody.Base.Earliest
import DtnCustody.Flight.Keyring
import DtnCustody.Flight.KeyringSafe
import DtnCustody.Ssi.Earliest
import DtnCustody.Transport.FastStamp
