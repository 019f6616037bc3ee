import FourFunction.Binary64.Bits
import FourFunction.Main
import FourFunction.Proofs.AcceptedEntry
import FourFunction.Proofs.ChainedCalculation
import FourFunction.Proofs.DecimalRank
import FourFunction.Proofs.DisplayReading
import FourFunction.Proofs.EntryShape
import FourFunction.Proofs.Numerals
import FourFunction.Proofs.OperandCounts
import FourFunction.Proofs.PlainSession
import FourFunction.Proofs.RepeatedEquals
import FourFunction.Proofs.TwoTier
import FourFunction.Proofs.ArrangedTrees
import FourFunction.Proofs.ResultField
import FourFunction.Proofs.EntryKeys
import FourFunction.Proofs.EntryOutcome
import FourFunction.Proofs.DigitCorrection
import FourFunction.Proofs.Forests
import FourFunction.Proofs.NonFiniteResults
import FourFunction.Proofs.Observations
import FourFunction.Proofs.ConfigText
import FourFunction.Proofs.TextTokens
import FourFunction.Proofs.LexemeClasses
import FourFunction.Proofs.EntryNormalForm
import FourFunction.Proofs.CompactDisplay
import FourFunction.Proofs.Backspace
import FourFunction.Proofs.DisplayOrder
import FourFunction.Proofs.DecimalShape
import FourFunction.Proofs.PartialConfig
import FourFunction.Proofs.ReorderedParts
import FourFunction.Proofs.TokenOrder
import FourFunction.Proofs.FailedPushes
import FourFunction.Proofs.TypedActions
import FourFunction.Proofs.ErrorIndicator
