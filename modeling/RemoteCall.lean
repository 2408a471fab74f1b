import RemoteCall.Main
import RemoteCall.World
import RemoteCall.Proofs.Text.Cut
import RemoteCall.Proofs.Text.Utf8
import RemoteCall.Proofs.Text.Pieces
import RemoteCall.Proofs.Text.Pattern
import RemoteCall.Proofs.Outcome
import RemoteCall.Proofs.Multipart.Grammar
import RemoteCall.Proofs.Multipart.Truncation
import RemoteCall.Proofs.Numeric.Digits
import RemoteCall.Proofs.Multipart.ContentType
import RemoteCall.Proofs.Multipart.Boundary
import RemoteCall.Proofs.Multipart.RoundTrip
import RemoteCall.Proofs.Entries
import RemoteCall.Proofs.Json.RoundTrip
import RemoteCall.Proofs.Multipart.Disposition
import RemoteCall.Proofs.Request
import RemoteCall.Proofs.Json.Order
import RemoteCall.Proofs.Json.Assembly
import RemoteCall.Proofs.Shape.Record
import RemoteCall.Proofs.Reply.Descriptor
import RemoteCall.Proofs.Multipart.Filename
import RemoteCall.Proofs.Reply.Contract
import RemoteCall.Proofs.Reply.RoundTrip
import RemoteCall.Proofs.Yaml.Glyph
import RemoteCall.Proofs.Yaml.Plain
import RemoteCall.Proofs.Yaml.Quoted
import RemoteCall.Proofs.Yaml.Lexer
import RemoteCall.Proofs.Yaml.Step
import RemoteCall.Proofs.Yaml.Layout
import RemoteCall.Proofs.Json.Fraction
import RemoteCall.Proofs.Yaml.Safe
import RemoteCall.Proofs.Yaml.Node
import RemoteCall.Proofs.Yaml.Content
import RemoteCall.Proofs.Yaml.RoundTrip
import RemoteCall.Proofs.Yaml.Acceptance
import RemoteCall.Proofs.Render
import RemoteCall.Proofs.Numeric.Spelling
import RemoteCall.Proofs.Shape.Coercion
import RemoteCall.Proofs.Shape.Key
import RemoteCall.Proofs.Cache
import RemoteCall.Proofs.Client.Execution
import RemoteCall.Proofs.Client.Operation
import RemoteCall.Proofs.Client.Provenance
import RemoteCall.Proofs.Client.Transparency
import RemoteCall.Proofs.Shape.Extension
import RemoteCall.Proofs.Cache.Expiry
import RemoteCall.Proofs.Shape.Enlargement
import RemoteCall.Proofs.Cache.History
import RemoteCall.Proofs.Shape.Written
import RemoteCall.Proofs.Cache.Text
import RemoteCall.Proofs.Client.Export
import RemoteCall.Proofs.Numeric.Rounding
import RemoteCall.Proofs.Json.Reread
import RemoteCall.Proofs.Client.Confinement
import RemoteCall.Proofs.Cache.Eviction
import RemoteCall.Proofs.Client.Eviction
import RemoteCall.Proofs.Shape.Field
import RemoteCall.Proofs.Shape.Opaque
import RemoteCall.Proofs.Client.Login
import RemoteCall.Proofs.Shape.Integer
import RemoteCall.Proofs.Shape.Reread
import RemoteCall.Proofs.Shape.Normal
import RemoteCall.Proofs.Multipart.Injection
import RemoteCall.Proofs.Multipart.Names
import RemoteCall.Proofs.Disk.Path
import RemoteCall.Proofs.Disk.Write
import RemoteCall.Proofs.Command.Execution
import RemoteCall.Proofs.Command.Call
import RemoteCall.Proofs.Command.Attachments
import RemoteCall.Proofs.Command.Attendance
import RemoteCall.Proofs.Cache.Liveness
import RemoteCall.Proofs.Text.Position
import RemoteCall.Proofs.Multipart.Cursor
import RemoteCall.Proofs.Yaml.Indentation
