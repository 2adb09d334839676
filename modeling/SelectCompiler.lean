import SelectCompiler.Main
import SelectCompiler.Proofs.Acceptance
import SelectCompiler.Proofs.ArithmeticTexts
import SelectCompiler.Proofs.BindingOrder
import SelectCompiler.Proofs.ChronologicalTexts
import SelectCompiler.Proofs.ClauseOrder
import SelectCompiler.Proofs.Comments
import SelectCompiler.Proofs.ConstantTexts
import SelectCompiler.Proofs.DialectListing
import SelectCompiler.Proofs.DraftedNodes
import SelectCompiler.Proofs.EscapedPatterns
import SelectCompiler.Proofs.InlinedConstants
import SelectCompiler.Proofs.JoinScope
import SelectCompiler.Proofs.NegatedExists
import SelectCompiler.Proofs.Paging
import SelectCompiler.Proofs.Parenthesization
import SelectCompiler.Proofs.Placeholders
import SelectCompiler.Proofs.Qualification
import SelectCompiler.Proofs.Quoting
import SelectCompiler.Proofs.RankIndependence
import SelectCompiler.Proofs.RegistryLookup
import SelectCompiler.Proofs.RepeatedFilters
import SelectCompiler.Proofs.Serialization
import SelectCompiler.Proofs.SetOperands
import SelectCompiler.Proofs.SourceNames
import SelectCompiler.Proofs.TextIndependence
import SelectCompiler.Tree.Builders
import SelectCompiler.Wire.Encode
