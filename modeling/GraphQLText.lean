import GraphQLText.Main
import GraphQLText.Proofs.Lexing.BlockValue
import GraphQLText.Proofs.Lexing.Broken
import GraphQLText.Proofs.RoundTrip.Document
import GraphQLText.Proofs.RoundTrip.Production
import GraphQLText.Proofs.RoundTrip.Neighbours
import GraphQLText.Proofs.Reading.Constant
import GraphQLText.Proofs.Spans.Slice
import GraphQLText.Proofs.Prefix.Offending
import GraphQLText.Proofs.Locality.Outcome
import GraphQLText.Proofs.RoundTrip.Source
import GraphQLText.Proofs.Progress.Report
import GraphQLText.Proofs.Lexing.StringBody
import GraphQLText.Proofs.Snippets.Underline
import GraphQLText.Proofs.Spans.Nested
import GraphQLText.Proofs.Reading.Dispatch
import GraphQLText.Proofs.Lexing.Indentation
import GraphQLText.Proofs.Lexing.Partition
import GraphQLText.Proofs.Lexing.LongestNumber
import GraphQLText.Proofs.Snippets.Layout
import GraphQLText.Proofs.Writing.Depth
import GraphQLText.Proofs.Reading.Cuts
import GraphQLText.Proofs.Progress.Termination
import GraphQLText.Proofs.Lexing.EscapedMarks
import GraphQLText.Proofs.Snippets.Location
