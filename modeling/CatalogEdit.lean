import CatalogEdit.CommandLine
import CatalogEdit.Edit
import CatalogEdit.Endpoint
import CatalogEdit.Json.Basic
import CatalogEdit.Json.Cursor
import CatalogEdit.Json.Parser
import CatalogEdit.Json.Printer
import CatalogEdit.Json.Token
import CatalogEdit.Lexicon
import CatalogEdit.Main
import CatalogEdit.Mention.Amount
import CatalogEdit.Mention.Phrase
import CatalogEdit.Mention.Status
import CatalogEdit.Mention.Tags
import CatalogEdit.Named
import CatalogEdit.Number.Binary64
import CatalogEdit.Number.Numeral
import CatalogEdit.Number.Shortest
import CatalogEdit.Path
import CatalogEdit.Plan.Inventory
import CatalogEdit.Plan.Price
import CatalogEdit.Plan.Status
import CatalogEdit.Plan.Tags
import CatalogEdit.Planning
import CatalogEdit.Proofs.CommandLine.Address
import CatalogEdit.Proofs.CommandLine.Grammar
import CatalogEdit.Proofs.CommandLine.Modes
import CatalogEdit.Proofs.CommandLine.Switches
import CatalogEdit.Proofs.Endpoint.Faults
import CatalogEdit.Proofs.Mention.Amount
import CatalogEdit.Proofs.Mention.Case
import CatalogEdit.Proofs.Mention.EmptyQuotes
import CatalogEdit.Proofs.Mention.Listing
import CatalogEdit.Proofs.Mention.Money
import CatalogEdit.Proofs.Mention.Number
import CatalogEdit.Proofs.Mention.Place
import CatalogEdit.Proofs.Mention.Preposition
import CatalogEdit.Proofs.Mention.Span
import CatalogEdit.Proofs.Mention.TagWord
import CatalogEdit.Proofs.Mention.Tags
import CatalogEdit.Proofs.Number.Rounding
import CatalogEdit.Proofs.Number.Value
import CatalogEdit.Proofs.Plan.Case
import CatalogEdit.Proofs.Plan.Character
import CatalogEdit.Proofs.Plan.Inventory
import CatalogEdit.Proofs.Plan.Keyword
import CatalogEdit.Proofs.Plan.Listing
import CatalogEdit.Proofs.Plan.Place
import CatalogEdit.Proofs.Plan.Price
import CatalogEdit.Proofs.Plan.Quantity
import CatalogEdit.Proofs.Plan.Quotation
import CatalogEdit.Proofs.Plan.Sound
import CatalogEdit.Proofs.Plan.Status
import CatalogEdit.Proofs.Residue.Clean
import CatalogEdit.Proofs.Residue.Phrase
import CatalogEdit.Proofs.Residue.SinglePass
import CatalogEdit.Proofs.Rule.Broken
import CatalogEdit.Proofs.Rule.Report
import CatalogEdit.Proofs.Rule.Sound
import CatalogEdit.Proofs.Rule.Timestamp
import CatalogEdit.Proofs.Text.Alone
import CatalogEdit.Proofs.Text.Case
import CatalogEdit.Proofs.Text.CaseScan
import CatalogEdit.Proofs.Text.Collapse
import CatalogEdit.Proofs.Text.Keyword
import CatalogEdit.Proofs.Text.Once
import CatalogEdit.Proofs.Text.Quotation
import CatalogEdit.Proofs.Text.Removal
import CatalogEdit.Proofs.Text.Replacement
import CatalogEdit.Proofs.Text.Run
import CatalogEdit.Proofs.Text.Search
import CatalogEdit.Proofs.Text.Trim
import CatalogEdit.Proofs.Text.Words
import CatalogEdit.Proofs.Wire.Acceptance
import CatalogEdit.Proofs.Wire.Complaint
import CatalogEdit.Proofs.Wire.Fields
import CatalogEdit.Proofs.Wire.Injective
import CatalogEdit.Proofs.Wire.NormalForm
import CatalogEdit.Proofs.Wire.Request
import CatalogEdit.Proofs.Wire.RoundTrip
import CatalogEdit.Proofs.Wire.Schema
import CatalogEdit.Residue
import CatalogEdit.Response
import CatalogEdit.Rule.Check
import CatalogEdit.Rule.Timestamp
import CatalogEdit.Rule.Violation
import CatalogEdit.Selection
import CatalogEdit.SocketAddress
import CatalogEdit.Text.Basic
import CatalogEdit.Text.Byte
import CatalogEdit.Text.Quoted
import CatalogEdit.Text.Scan
import CatalogEdit.Text.Utf8
import CatalogEdit.Text.Word
import CatalogEdit.Wire.Decode
import CatalogEdit.Wire.Encode
import CatalogEdit.Wire.Request
