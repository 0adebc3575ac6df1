import MorphLex.Bytes.LittleEndian
import MorphLex.CharSet
import MorphLex.Command.Arguments
import MorphLex.Command.Files
import MorphLex.Command.Run
import MorphLex.Dictionary.Compiler
import MorphLex.Dictionary.Entry
import MorphLex.Dictionary.Event
import MorphLex.Dictionary.Fault
import MorphLex.Dictionary.Markup
import MorphLex.Dictionary.Options
import MorphLex.Dictionary.Registry
import MorphLex.Graph.Reach
import MorphLex.Main
import MorphLex.Number.Binary64
import MorphLex.Number.Numeral
import MorphLex.Number.Power
import MorphLex.Number.Shortest
import MorphLex.Order.Ascending
import MorphLex.Pattern.Basic
import MorphLex.Pattern.Build
import MorphLex.Pattern.Parse
import MorphLex.Proofs.Command.Output
import MorphLex.Proofs.Dictionary.Appending
import MorphLex.Proofs.Dictionary.Arcs
import MorphLex.Proofs.Dictionary.Correctness
import MorphLex.Proofs.Dictionary.Filtering
import MorphLex.Proofs.Dictionary.FirstFault
import MorphLex.Proofs.Dictionary.Grouping
import MorphLex.Proofs.Dictionary.Items
import MorphLex.Proofs.Dictionary.Lines
import MorphLex.Proofs.Dictionary.Lookup
import MorphLex.Proofs.Dictionary.Markup
import MorphLex.Proofs.Dictionary.Meaning
import MorphLex.Proofs.Dictionary.Path
import MorphLex.Proofs.Dictionary.Proper
import MorphLex.Proofs.Dictionary.Reading
import MorphLex.Proofs.Dictionary.Registry
import MorphLex.Proofs.Dictionary.Regular
import MorphLex.Proofs.Dictionary.Reported
import MorphLex.Proofs.Dictionary.Sections
import MorphLex.Proofs.Dictionary.Spelling
import MorphLex.Proofs.Dictionary.Union
import MorphLex.Proofs.Dictionary.Validity
import MorphLex.Proofs.Dictionary.Visits
import MorphLex.Proofs.Graph.Reach
import MorphLex.Proofs.Number.Positional
import MorphLex.Proofs.Number.Shortest
import MorphLex.Proofs.Order.Ascending
import MorphLex.Proofs.Pattern.Arcs
import MorphLex.Proofs.Pattern.Completeness
import MorphLex.Proofs.Pattern.Construction
import MorphLex.Proofs.Pattern.Exactness
import MorphLex.Proofs.Pattern.Grammar
import MorphLex.Proofs.Pattern.Isolation
import MorphLex.Proofs.Pattern.Language
import MorphLex.Proofs.Pattern.Reading
import MorphLex.Proofs.Pattern.Repetition
import MorphLex.Proofs.Result
import MorphLex.Proofs.Search.Completeness
import MorphLex.Proofs.Search.Limits
import MorphLex.Proofs.Search.OutputLimit
import MorphLex.Proofs.Search.Reduction
import MorphLex.Proofs.Search.Soundness
import MorphLex.Proofs.Transducer.Appended
import MorphLex.Proofs.Transducer.AttText
import MorphLex.Proofs.Transducer.Bisimulation
import MorphLex.Proofs.Transducer.Blocks
import MorphLex.Proofs.Transducer.Branch
import MorphLex.Proofs.Transducer.EachArc
import MorphLex.Proofs.Transducer.Finite
import MorphLex.Proofs.Transducer.Growth
import MorphLex.Proofs.Transducer.Jumps
import MorphLex.Proofs.Transducer.LongestMatch
import MorphLex.Proofs.Transducer.Merge
import MorphLex.Proofs.Transducer.Paths
import MorphLex.Proofs.Transducer.Prolong
import MorphLex.Proofs.Transducer.Reduced
import MorphLex.Proofs.Transducer.Reorder
import MorphLex.Proofs.Transducer.Rounds
import MorphLex.Proofs.Transducer.Run
import MorphLex.Proofs.Transducer.Simulation
import MorphLex.Proofs.Transducer.Splice
import MorphLex.Proofs.Transducer.Symbols
import MorphLex.Proofs.Transducer.Trim
import MorphLex.Proofs.Transducer.Useful
import MorphLex.Proofs.Vfst.Canonical
import MorphLex.Proofs.Vfst.Checked
import MorphLex.Proofs.Vfst.CheckedWriting
import MorphLex.Proofs.Vfst.Failures
import MorphLex.Proofs.Vfst.FaultOrder
import MorphLex.Proofs.Vfst.Layout
import MorphLex.Proofs.Vfst.OverflowCell
import MorphLex.Proofs.Vfst.RoundTrip
import MorphLex.Proofs.Vfst.Runs
import MorphLex.Proofs.Vfst.Soundness
import MorphLex.Proofs.Vfst.SymbolCodec
import MorphLex.Proofs.Vfst.SymbolTable
import MorphLex.Proofs.Vfst.Table
import MorphLex.Proofs.Weight.Exact
import MorphLex.Proofs.Weight.Order
import MorphLex.Proofs.Weight.Rounding
import MorphLex.Proofs.Weight.Sum
import MorphLex.Proofs.Weight.Text
import MorphLex.Proofs.Weight.Zero
import MorphLex.Symbol
import MorphLex.Text.Blank
import MorphLex.Transducer.AttText
import MorphLex.Transducer.Basic
import MorphLex.Transducer.Merge
import MorphLex.Transducer.Search
import MorphLex.Transducer.Splice
import MorphLex.Transducer.Split
import MorphLex.Transducer.Trim
import MorphLex.Vfst.Decode
import MorphLex.Vfst.Encode
import MorphLex.Vfst.Fault
import MorphLex.Vfst.Header
import MorphLex.Vfst.Record
import MorphLex.Vfst.SymbolTable
import MorphLex.Weight
import MorphLex.Xml.Document
import MorphLex.Xml.Draft
import MorphLex.Xml.Letters
import MorphLex.Xml.Node
import MorphLex.Xml.Reference
import MorphLex.Xml.Source
