import FormatExpr.Session
import FormatExpr.Stored
import FormatExpr.Proofs.Asking
import FormatExpr.Proofs.DisplayExact
import FormatExpr.Proofs.DisplayRoundTrip
import FormatExpr.Proofs.ExpressionGrammar
import FormatExpr.Proofs.Levels
import FormatExpr.Proofs.ErrorColumns
import FormatExpr.Proofs.ViablePrefix
import FormatExpr.Proofs.Nearest
import FormatExpr.Proofs.Layout
import FormatExpr.Proofs.Composition
import FormatExpr.Proofs.IntegerTokens
import FormatExpr.Proofs.ShortestDecimal
import FormatExpr.Proofs.SignificantDigits
import FormatExpr.Proofs.JsonNumeral
import FormatExpr.Proofs.JsonText
import FormatExpr.Proofs.JsonLibrary
import FormatExpr.Proofs.StreamingLaws
import FormatExpr.Proofs.JsonRecords
import FormatExpr.Proofs.Storing
import FormatExpr.Proofs.Restoring
import FormatExpr.Proofs.Lineage
import FormatExpr.Proofs.FloatText
import FormatExpr.Proofs.Flattening
import FormatExpr.Proofs.Midpoints
import FormatExpr.Proofs.JsonLayout
import FormatExpr.Proofs.LiteralJson
import FormatExpr.Proofs.Layering
import FormatExpr.Proofs.EmptyArguments
import FormatExpr.Proofs.Logging
import FormatExpr.Proofs.Room
import FormatExpr.Proofs.JsonSpellings
import FormatExpr.Proofs.TopSeparators
