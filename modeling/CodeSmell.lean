import CodeSmell.Main
import CodeSmell.Similarity
import CodeSmell.Proofs.Lexer.Lossless
import CodeSmell.Proofs.Grammar.Expr
import CodeSmell.Proofs.Grammar.Stmt
import CodeSmell.Proofs.Parser.Reads
import CodeSmell.Proofs.Parser.Expr
import CodeSmell.Proofs.Parser.Pattern
import CodeSmell.Proofs.Parser.Stmt
import CodeSmell.Proofs.Grammar.Weight
import CodeSmell.Proofs.Grammar.Reading
import CodeSmell.Proofs.Lexer.Layout
import CodeSmell.Proofs.Model.Scope
import CodeSmell.Proofs.Parser.Module
import CodeSmell.Proofs.Lexer.Order
import CodeSmell.Proofs.Lexer.Nesting
import CodeSmell.Proofs.Model.Literals
import CodeSmell.Proofs.Model.Decisions
import CodeSmell.Proofs.Parser.Takes
import CodeSmell.Proofs.RoundTrip.Levels
import CodeSmell.Proofs.RoundTrip.Operators
import CodeSmell.Proofs.RoundTrip.Line
import CodeSmell.Proofs.Parser.Leaves
import CodeSmell.Proofs.Model.Lines
import CodeSmell.Proofs.Model.Chains
import CodeSmell.Proofs.Renaming.Clones
import CodeSmell.Proofs.Renaming.Progress
import CodeSmell.Proofs.Model.Definitions
import CodeSmell.Proofs.Model.Origins
import CodeSmell.Proofs.Detector.Selection
import CodeSmell.Proofs.Pipeline.Files
import CodeSmell.Proofs.Report.Document
import CodeSmell.Proofs.Lexer.BlankLines
import CodeSmell.Proofs.Lexer.LineEndings
import CodeSmell.Proofs.Places.Source
import CodeSmell.Proofs.Registry.Active
import CodeSmell.Proofs.Detector.Pairs
import CodeSmell.Proofs.Detector.MagicNumbers
import CodeSmell.Proofs.Detector.Sessions
import CodeSmell.Proofs.Lookahead.Match
import CodeSmell.Proofs.Lexer.HollowLines
import CodeSmell.Proofs.Similarity.Scores
import CodeSmell.Proofs.Detector.FeatureEnvy
import CodeSmell.Proofs.Detector.Thresholds
import CodeSmell.Proofs.Model.Constants
import CodeSmell.Proofs.CommandLine.ListOptions
import CodeSmell.Proofs.Model.Imports
import CodeSmell.Proofs.Similarity.Roles
import CodeSmell.Proofs.Parser.Children
import CodeSmell.Proofs.CommandLine.WrittenOptions
import CodeSmell.Proofs.Log.Lines
import CodeSmell.Proofs.Report.Table
import CodeSmell.Proofs.Report.Summary
import CodeSmell.Proofs.Files.Sources
import CodeSmell.Proofs.Lookahead.Trailing
