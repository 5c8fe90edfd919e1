import SpectrumAsm.Main
import SpectrumAsm.Proofs.LoopVariables
import SpectrumAsm.Proofs.QualifiedNames
import SpectrumAsm.Proofs.LoopCourses
import SpectrumAsm.Proofs.LoopUnrolling
import SpectrumAsm.Proofs.SingleAssignment
import SpectrumAsm.Proofs.CaseInsensitivity
import SpectrumAsm.Proofs.SkippedSections
import SpectrumAsm.Proofs.IncludeChains
import SpectrumAsm.Proofs.OverriddenBytes
import SpectrumAsm.Proofs.ScopeEnds
import SpectrumAsm.Proofs.Variables
import SpectrumAsm.Proofs.ClosingLabels
import SpectrumAsm.Proofs.Placeholders
import SpectrumAsm.Proofs.HangingLabels
import SpectrumAsm.Proofs.Refusals
import SpectrumAsm.Proofs.Expansions
import SpectrumAsm.Proofs.Definitions
import SpectrumAsm.Proofs.Answers
import SpectrumAsm.Proofs.Literals
import SpectrumAsm.Proofs.Brackets
import SpectrumAsm.Proofs.NextCodes
import SpectrumAsm.Proofs.TextData
import SpectrumAsm.Proofs.WordArithmetic
import SpectrumAsm.Proofs.RandomNumbers
import SpectrumAsm.Proofs.TokenColumns
