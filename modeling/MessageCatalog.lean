import MessageCatalog.Catalog.Log
import MessageCatalog.Catalog.Snapshot
import MessageCatalog.Proofs.ObjectFile.Encoding
import MessageCatalog.Proofs.Plural.Meaning
import MessageCatalog.Proofs.Template.Grammar
import MessageCatalog.Proofs.Template.Reading
import MessageCatalog.Proofs.Template.Formatting
import MessageCatalog.Proofs.Catalog.Basic
import MessageCatalog.Proofs.Catalog.Loading
import MessageCatalog.Proofs.Catalog.Reachable
import MessageCatalog.Proofs.Catalog.Restoring
import MessageCatalog.Proofs.Catalog.Translating
import MessageCatalog.Proofs.Catalog.Headers
import MessageCatalog.Proofs.Template.Escaping
import MessageCatalog.Proofs.Template.Numbering
import MessageCatalog.Proofs.ObjectFile.Footprint
import MessageCatalog.Proofs.ObjectFile.Reordering
import MessageCatalog.Proofs.Plural.Spacing
import MessageCatalog.Proofs.Plural.Rendering
import MessageCatalog.Proofs.Plural.Exact
import MessageCatalog.Proofs.Template.Arguments
import MessageCatalog.Proofs.Plural.Diagnosis
import MessageCatalog.Proofs.Plural.Moving
import MessageCatalog.Proofs.Template.Composing
import MessageCatalog.Proofs.Number.Positional
import MessageCatalog.Proofs.Template.Padding
import MessageCatalog.Proofs.Number.Numerals
import MessageCatalog.Proofs.Template.Leading
import MessageCatalog.Proofs.Template.Integers
import MessageCatalog.Proofs.Number.Rounding
import MessageCatalog.Proofs.Number.Significant
import MessageCatalog.Proofs.Template.General
import MessageCatalog.Proofs.Template.Casing
import MessageCatalog.Proofs.Bytewise.Template
import MessageCatalog.Proofs.Catalog.Editing
import MessageCatalog.Proofs.Text.Parts
import MessageCatalog.Proofs.Text.Separators
import MessageCatalog.Proofs.Catalog.Lines
import MessageCatalog.Proofs.Catalog.Reporting
import MessageCatalog.Proofs.Catalog.Strings
import MessageCatalog.Proofs.Catalog.Logging
import MessageCatalog.Proofs.ObjectFile.Words
import MessageCatalog.Proofs.ObjectFile.Truncation
import MessageCatalog.Proofs.Plural.Walking
import MessageCatalog.Proofs.Plural.Partition
import MessageCatalog.Proofs.Plural.Recording
import MessageCatalog.Proofs.Template.Writing
